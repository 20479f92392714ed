import GraphQLDoc.Artifact
import GraphQLDoc.Ast.Document
import GraphQLDoc.Ast.Encoding
import GraphQLDoc.Ast.Executable
import GraphQLDoc.Ast.Nesting
import GraphQLDoc.Ast.TypeSystem
import GraphQLDoc.Ast.Value
import GraphQLDoc.Automaton.Items
import GraphQLDoc.Automaton.Lookaheads
import GraphQLDoc.Automaton.States
import GraphQLDoc.Automaton.Table
import GraphQLDoc.Braun
import GraphQLDoc.CommandLine.Arguments
import GraphQLDoc.CommandLine.Grammar
import GraphQLDoc.CommandLine.Run
import GraphQLDoc.Conversion.Cursor
import GraphQLDoc.Conversion.Error
import GraphQLDoc.Conversion.Executable
import GraphQLDoc.Conversion.TypeSystem
import GraphQLDoc.Conversion.Values
import GraphQLDoc.Decoding.Check
import GraphQLDoc.Decoding.Document
import GraphQLDoc.Decoding.Executable
import GraphQLDoc.Decoding.Issue
import GraphQLDoc.Decoding.Scalar
import GraphQLDoc.Decoding.TypeSystem
import GraphQLDoc.Decoding.Types
import GraphQLDoc.Entries
import GraphQLDoc.FileSystem.Basic
import GraphQLDoc.FileSystem.Change
import GraphQLDoc.FileSystem.Path
import GraphQLDoc.FileSystem.Resolve
import GraphQLDoc.Glob.Pattern
import GraphQLDoc.Glob.Select
import GraphQLDoc.Glob.Wildcard
import GraphQLDoc.Grammar.Production
import GraphQLDoc.Grammar.Rule
import GraphQLDoc.Grammar.Terminal
import GraphQLDoc.Json.Basic
import GraphQLDoc.Json.Display
import GraphQLDoc.Json.Reader
import GraphQLDoc.Json.Writer
import GraphQLDoc.Literal.Block
import GraphQLDoc.Literal.Quoted
import GraphQLDoc.Machine
import GraphQLDoc.Main
import GraphQLDoc.Number.Binary64
import GraphQLDoc.Number.Numeral
import GraphQLDoc.Number.Shortest
import GraphQLDoc.Number.Text
import GraphQLDoc.Parse
import GraphQLDoc.ParseTree.Basic
import GraphQLDoc.ParseTree.Parse
import GraphQLDoc.ParseTree.SyntaxError
import GraphQLDoc.Proofs.Agreement.Document
import GraphQLDoc.Proofs.Agreement.Executable
import GraphQLDoc.Proofs.Agreement.Values
import GraphQLDoc.Proofs.Agreement.Walk
import GraphQLDoc.Proofs.Ast.Validity
import GraphQLDoc.Proofs.Ast.Writable
import GraphQLDoc.Proofs.Automaton.Check
import GraphQLDoc.Proofs.Automaton.Table
import GraphQLDoc.Proofs.CommandLine.Check
import GraphQLDoc.Proofs.CommandLine.Outcome
import GraphQLDoc.Proofs.CommandLine.Printed
import GraphQLDoc.Proofs.Conversion.Clauses
import GraphQLDoc.Proofs.Conversion.Executable
import GraphQLDoc.Proofs.Conversion.Levels
import GraphQLDoc.Proofs.Conversion.Literals
import GraphQLDoc.Proofs.Conversion.TypeSystem
import GraphQLDoc.Proofs.Conversion.Values
import GraphQLDoc.Proofs.Conversion.Walk
import GraphQLDoc.Proofs.Decoding.Check
import GraphQLDoc.Proofs.Decoding.Definitions
import GraphQLDoc.Proofs.Decoding.Document
import GraphQLDoc.Proofs.Decoding.Passes
import GraphQLDoc.Proofs.Decoding.Types
import GraphQLDoc.Proofs.Decoding.Validity
import GraphQLDoc.Proofs.Faults.Basic
import GraphQLDoc.Proofs.Faults.Executable
import GraphQLDoc.Proofs.Faults.TypeSystem
import GraphQLDoc.Proofs.Faults.Values
import GraphQLDoc.Proofs.Faults.Walk
import GraphQLDoc.Proofs.FileSystem.Below
import GraphQLDoc.Proofs.FileSystem.Changes
import GraphQLDoc.Proofs.FileSystem.Links
import GraphQLDoc.Proofs.FileSystem.Reached
import GraphQLDoc.Proofs.FileSystem.Real
import GraphQLDoc.Proofs.FileSystem.Tree
import GraphQLDoc.Proofs.FileSystem.Walk
import GraphQLDoc.Proofs.Glob.Select
import GraphQLDoc.Proofs.Json.Canonical
import GraphQLDoc.Proofs.Json.Numbers
import GraphQLDoc.Proofs.Json.Printable
import GraphQLDoc.Proofs.Json.RoundTrip
import GraphQLDoc.Proofs.Json.Strings
import GraphQLDoc.Proofs.Leaves.Basic
import GraphQLDoc.Proofs.Leaves.Document
import GraphQLDoc.Proofs.Leaves.Executable
import GraphQLDoc.Proofs.Leaves.TypeSystem
import GraphQLDoc.Proofs.Leaves.Values
import GraphQLDoc.Proofs.Leaves.Walk
import GraphQLDoc.Proofs.Literal.Dedent
import GraphQLDoc.Proofs.Literal.Surrogates
import GraphQLDoc.Proofs.Literal.Writing
import GraphQLDoc.Proofs.Number.Digits
import GraphQLDoc.Proofs.Number.Overflow
import GraphQLDoc.Proofs.Number.Printed
import GraphQLDoc.Proofs.Number.Rounding
import GraphQLDoc.Proofs.Number.Shortest
import GraphQLDoc.Proofs.Parse.Faults
import GraphQLDoc.Proofs.Parse.Ignored
import GraphQLDoc.Proofs.Parse.Integers
import GraphQLDoc.Proofs.Parse.Newlines
import GraphQLDoc.Proofs.Parse.Outcome
import GraphQLDoc.Proofs.ParseTree.Alike
import GraphQLDoc.Proofs.ParseTree.Alternatives
import GraphQLDoc.Proofs.ParseTree.Blocks
import GraphQLDoc.Proofs.ParseTree.Completeness
import GraphQLDoc.Proofs.ParseTree.Completion
import GraphQLDoc.Proofs.ParseTree.Derivation
import GraphQLDoc.Proofs.ParseTree.ErrorPlace
import GraphQLDoc.Proofs.ParseTree.Expected
import GraphQLDoc.Proofs.ParseTree.Positions
import GraphQLDoc.Proofs.ParseTree.Quotes
import GraphQLDoc.Proofs.ParseTree.Reading
import GraphQLDoc.Proofs.ParseTree.Shape
import GraphQLDoc.Proofs.ParseTree.Soundness
import GraphQLDoc.Proofs.ParseTree.Spelled
import GraphQLDoc.Proofs.ParseTree.Words
import GraphQLDoc.Proofs.Printing.Basic
import GraphQLDoc.Proofs.Printing.Document
import GraphQLDoc.Proofs.Printing.Executable
import GraphQLDoc.Proofs.Printing.Extensions
import GraphQLDoc.Proofs.Printing.Lists
import GraphQLDoc.Proofs.Printing.Printable
import GraphQLDoc.Proofs.Printing.TypeSystem
import GraphQLDoc.Proofs.Printing.Values
import GraphQLDoc.Proofs.Printing.Walk
import GraphQLDoc.Proofs.Printing.Words
import GraphQLDoc.Proofs.Regular.Document
import GraphQLDoc.Proofs.Regular.Executable
import GraphQLDoc.Proofs.Regular.Walk
import GraphQLDoc.Proofs.Text.Utf8
import GraphQLDoc.Proofs.Token.Follow
import GraphQLDoc.Proofs.Token.Newlines
import GraphQLDoc.Proofs.Token.Number
import GraphQLDoc.Proofs.Token.Place
import GraphQLDoc.Proofs.Token.Spelling
import GraphQLDoc.Proofs.Token.Split
import GraphQLDoc.Proofs.Validation.Placement
import GraphQLDoc.Proofs.Validation.References
import GraphQLDoc.Proofs.Validation.Verdict
import GraphQLDoc.Proofs.Workspace.Apart
import GraphQLDoc.Proofs.Workspace.Beside
import GraphQLDoc.Proofs.Workspace.Cache
import GraphQLDoc.Proofs.Workspace.Config
import GraphQLDoc.Proofs.Workspace.Documents
import GraphQLDoc.Proofs.Workspace.Failure
import GraphQLDoc.Proofs.Workspace.Healing
import GraphQLDoc.Proofs.Workspace.Key
import GraphQLDoc.Proofs.Workspace.LongNames
import GraphQLDoc.Proofs.Workspace.Matching
import GraphQLDoc.Proofs.Workspace.Progress
import GraphQLDoc.Proofs.Workspace.Repeat
import GraphQLDoc.Proofs.Workspace.Run
import GraphQLDoc.Proofs.Workspace.Saved
import GraphQLDoc.Proofs.Workspace.Setting
import GraphQLDoc.Proofs.Workspace.Sources
import GraphQLDoc.Proofs.Workspace.Transparent
import GraphQLDoc.Proofs.Workspace.Within
import GraphQLDoc.Proofs.Yaml.Nodes
import GraphQLDoc.Proofs.Yaml.Scalar
import GraphQLDoc.Proofs.Yaml.Tokens
import GraphQLDoc.Text.Character
import GraphQLDoc.Text.Newlines
import GraphQLDoc.Text.Position
import GraphQLDoc.Text.Printable
import GraphQLDoc.Text.Quoted
import GraphQLDoc.Text.Utf8
import GraphQLDoc.Token.Basic
import GraphQLDoc.Token.Pattern
import GraphQLDoc.Validation
import GraphQLDoc.Workspace.Compile
import GraphQLDoc.Workspace.Config
import GraphQLDoc.Workspace.Fault
import GraphQLDoc.Workspace.Source
import GraphQLDoc.Workspace.Sources
import GraphQLDoc.Yaml.Document
import GraphQLDoc.Yaml.Graph
import GraphQLDoc.Yaml.Input
import GraphQLDoc.Yaml.Lexer
import GraphQLDoc.Yaml.Problem
import GraphQLDoc.Yaml.Property
import GraphQLDoc.Yaml.Scalar
import GraphQLDoc.Yaml.Tag
import GraphQLDoc.Yaml.Timestamp
import GraphQLDoc.Yaml.Token
import GraphQLDoc.Yaml.Value
