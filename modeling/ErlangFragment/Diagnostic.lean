import ErlangFragment.Span

/-! Errors as users see them: a message, and either a place in the source or a file. -/

namespace ErlangFragment

/-- An error with the data that users are told. Errors about a text have a span in it, and errors
about a file have its path. -/
inductive Diagnostic
  | lexical (reason : String) (span : Span)
  | grammar (context reason : String) (span : Span)
  | analysis (kind : String) (span : Span)
  | io (message path : String)
  | config (message path : String)
deriving DecidableEq

namespace Diagnostic

/-- The message, with the line where it names one. -/
def message : Diagnostic → String
  | lexical reason span => "Lex error on line " ++ Nat.repr span.line ++ ": " ++ reason
  | grammar context reason span =>
    "Parse error on line " ++ Nat.repr span.line ++ " in " ++ context ++ ": " ++ reason
  | analysis kind _ => "Analysis error: cannot classify " ++ kind ++ " node"
  | io text _ => "I/O error: " ++ text
  | config text _ => "Config error: " ++ text

/-- The part of the source that the error is about. -/
def span? : Diagnostic → Option Span
  | lexical _ span => some span
  | grammar _ _ span => some span
  | analysis _ span => some span
  | io _ _ => none
  | config _ _ => none

/-- The line that the error points at. -/
def line? (d : Diagnostic) : Option Nat := d.span?.map Span.line

def isLexical : Diagnostic → Bool
  | lexical _ _ => true
  | _ => false

def isGrammar : Diagnostic → Bool
  | grammar _ _ _ => true
  | _ => false

def isAnalysis : Diagnostic → Bool
  | analysis _ _ => true
  | _ => false

end Diagnostic

end ErlangFragment
