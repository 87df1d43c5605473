import ErlangFragment.Diagnostic
import ErlangFragment.Grammar.Form
import ErlangFragment.Token.Lexer

/-! From source text to trees: snippets of expressions, and the forms of a module. -/

namespace ErlangFragment

/-- Why a text cannot be read. -/
inductive SourceError
  | lexical (error : LexicalError)
  | grammar (error : GrammarError)
deriving DecidableEq

namespace SourceError

def span : SourceError → Span
  | lexical e => e.span
  | grammar e => e.span

def diagnostic : SourceError → Diagnostic
  | lexical e => .lexical e.fault.reason e.span
  | grammar e => .grammar e.context.text e.fault.reason e.span

end SourceError

/-- Tokens with a block around them and a terminator behind it. The block has no width of its
own. -/
def wrapSnippet (source : String) (startLine endLine : Nat) (tokens : List (Located Token)) :
    List (Located Token) :=
  let size := byteLength source.toList
  ⟨.keyword .begin, ⟨0, 0, startLine⟩⟩ :: tokens ++
    [⟨.keyword .end_, ⟨size, size, endLine⟩⟩, ⟨.terminator, ⟨size, size, endLine⟩⟩]

/-- The block of the expressions in a text that starts on the given line. The text stands between
`begin` and `end`, which it must not close. -/
def parseSnippetAt (source : String) (startLine : Nat) : Except SourceError (Located Expr) := do
  let (tokens, endLine) ← (tokenize source startLine).mapError .lexical
  let sequence ←
    (parseExpressionSequence (wrapSnippet source startLine endLine tokens)).mapError .grammar
  match sequence.node with
  | .block [block] => return block
  | _ => throw (.grammar ⟨.snippet, .unopenedBlock, sequence.span⟩)

/-- The block of the expressions in a text that starts on line 1. -/
def parseSnippet (source : String) : Except SourceError (Located Expr) := parseSnippetAt source 1

/-- The forms of a text that starts on the given line. -/
def parseDeclarationsAt (source : String) (startLine : Nat) :
    Except SourceError (List (Located Form)) := do
  let (tokens, _) ← (tokenize source startLine).mapError .lexical
  (parseForms tokens).mapError .grammar

/-- The forms of a text that starts on line 1. -/
def parseDeclarations (source : String) : Except SourceError (List (Located Form)) :=
  parseDeclarationsAt source 1

end ErlangFragment
