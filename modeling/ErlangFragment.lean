import ErlangFragment.Binary64
import ErlangFragment.Binary64.Notation
import ErlangFragment.Binary64.Shortest
import ErlangFragment.Command.Arguments
import ErlangFragment.Command.Headline
import ErlangFragment.Command.Run
import ErlangFragment.Diagnostic
import ErlangFragment.Files
import ErlangFragment.Files.Path
import ErlangFragment.Files.Tree
import ErlangFragment.FreeVariables
import ErlangFragment.Grammar.Error
import ErlangFragment.Grammar.Expression
import ErlangFragment.Grammar.Form
import ErlangFragment.Grammar.Parser
import ErlangFragment.Json
import ErlangFragment.Layout
import ErlangFragment.Loader
import ErlangFragment.Printer
import ErlangFragment.Report
import ErlangFragment.Scope
import ErlangFragment.Settings
import ErlangFragment.Source
import ErlangFragment.Span
import ErlangFragment.Split
import ErlangFragment.Text.Class
import ErlangFragment.Text.Radix
import ErlangFragment.Token
import ErlangFragment.Token.Keyword
import ErlangFragment.Token.Lexeme
import ErlangFragment.Token.Lexer
import ErlangFragment.Token.Quoted
import ErlangFragment.Token.Symbol
import ErlangFragment.Toml
import ErlangFragment.Toml.Document
import ErlangFragment.Toml.Scalar
import ErlangFragment.Tree
import ErlangFragment.Tree.Encoding
import ErlangFragment.Tree.Equality
import ErlangFragment.Tree.Operator
import ErlangFragment.Tree.Preorder
import ErlangFragment.Tree.Rewriting
import ErlangFragment.Main
import ErlangFragment.Proofs.Text.Radix
import ErlangFragment.Proofs.Token.Quoted
import ErlangFragment.Proofs.Token.Symbol
import ErlangFragment.Proofs.Token.Lexeme
import ErlangFragment.Proofs.Token.Number
import ErlangFragment.Proofs.Token.Position
import ErlangFragment.Proofs.Token.Character
import ErlangFragment.Proofs.Token.Concatenation
import ErlangFragment.Proofs.Token.Tiling
import ErlangFragment.Proofs.Token.Denotation
import ErlangFragment.Proofs.Layout
import ErlangFragment.Proofs.Tree.Erasure
import ErlangFragment.Proofs.Tree.Alike
import ErlangFragment.Proofs.Tree.Requirement
import ErlangFragment.Proofs.Tree.Shape
import ErlangFragment.Proofs.Tree.Spans
import ErlangFragment.Proofs.Tree.Traversal
import ErlangFragment.Proofs.FreeVariables
import ErlangFragment.Proofs.FreeVariables.Macros
import ErlangFragment.Proofs.FreeVariables.Parameters
import ErlangFragment.Proofs.FreeVariables.Clauses
import ErlangFragment.Proofs.Grammar.Laws
import ErlangFragment.Proofs.Grammar.Relocation
import ErlangFragment.Proofs.Grammar.Derivation
import ErlangFragment.Proofs.Grammar.Soundness
import ErlangFragment.Proofs.Grammar.Completeness
import ErlangFragment.Proofs.Grammar.Correctness
import ErlangFragment.Proofs.Snippet
import ErlangFragment.Proofs.Printer.Faithful
import ErlangFragment.Proofs.Printer.Laws
import ErlangFragment.Proofs.Printer.Spacing
import ErlangFragment.Proofs.Printer.Reading
import ErlangFragment.Proofs.Printer.Lists
import ErlangFragment.Proofs.Printer.Nodes
import ErlangFragment.Proofs.Printer.Clauses
import ErlangFragment.Proofs.Printer.Trees
import ErlangFragment.Proofs.Grammar.Forms
import ErlangFragment.Proofs.Grammar.Shape
import ErlangFragment.Proofs.Grammar.Spans
import ErlangFragment.Proofs.Grammar.Errors
import ErlangFragment.Proofs.Insertion
import ErlangFragment.Proofs.Printer.Legible
import ErlangFragment.Proofs.Printer.RoundTrip
import ErlangFragment.Proofs.Token.Escape
import ErlangFragment.Proofs.Token.Fault
import ErlangFragment.Proofs.Token.Lexed
import ErlangFragment.Proofs.Token.Integer
import ErlangFragment.Proofs.Printer.RawTokens
import ErlangFragment.Proofs.Grammar.Cutting
import ErlangFragment.Proofs.Printer.Forms
import ErlangFragment.Proofs.Printer.Modules
import ErlangFragment.Proofs.Grammar.Precedence
import ErlangFragment.Proofs.Grammar.Nesting
import ErlangFragment.Proofs.Grammar.Segments
import ErlangFragment.Proofs.Printer.RawReading
import ErlangFragment.Proofs.Diagnostic
import ErlangFragment.Proofs.Report
import ErlangFragment.Proofs.Scope
import ErlangFragment.Proofs.Tree.Order
import ErlangFragment.Proofs.Grammar.Order
import ErlangFragment.Proofs.Split
import ErlangFragment.Proofs.Files.Path
import ErlangFragment.Proofs.Settings
import ErlangFragment.Proofs.Token.CharacterLiteral
import ErlangFragment.Proofs.Grammar.Descent
import ErlangFragment.Proofs.Grammar.Termination
