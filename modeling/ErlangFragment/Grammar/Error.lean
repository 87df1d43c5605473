import ErlangFragment.Span
import ErlangFragment.Token

/-! What can be wrong with a sequence of tokens, and the construct in which it was noticed. -/

namespace ErlangFragment

/-- The constructs that errors name. -/
inductive GrammarContext
  | expression | expressionSequence | attribute | function | pattern | guard | clause | catchClause
  | funClause | ifClause | comprehension | binaryElement | map | record | beginBlock | declaration
  | snippet
deriving DecidableEq

/-- The name of the construct in messages. -/
def GrammarContext.text : GrammarContext → String
  | expression => "expression"
  | expressionSequence => "expression sequence"
  | .attribute => "attribute"
  | function => "function"
  | pattern => "pattern"
  | guard => "guard"
  | clause => "clause"
  | catchClause => "catch clause"
  | funClause => "fun clause"
  | ifClause => "if clause"
  | comprehension => "comprehension"
  | binaryElement => "binary element"
  | map => "map"
  | record => "record"
  | beginBlock => "begin block"
  | declaration => "declaration"
  | snippet => "snippet"

/-- What the grammar asks for at some place. -/
inductive Expectation
  | token (t : Token)
  | funName (name : String)
  | atom | attributeName | expression | integer | recordFieldName | macroName | funOrReference
  | remoteArguments | fieldOperator | catchOrAfter
deriving DecidableEq

/-- What is asked for, as messages have it. Tokens and names are quoted, kinds of things are not. -/
def Expectation.text : Expectation → String
  | token t => "'" ++ t.text ++ "'"
  | funName name => "'" ++ name ++ "'"
  | atom => "atom"
  | attributeName => "attribute name"
  | expression => "expression"
  | integer => "integer"
  | recordFieldName => "record field name"
  | macroName => "macro name"
  | funOrReference => "fun clauses or a function reference"
  | remoteArguments => "'(' after remote function name"
  | fieldOperator => "'=>' or ':='"
  | catchOrAfter => "'catch' or 'after'"

/-- Why tokens do not follow the grammar. -/
inductive GrammarFault
  /-- Something else stands there, or the end of the input. -/
  | expected (what : Expectation) (found : Option Token)
  | afterTerminator (found : Token)
  | headMismatch (found : String × Nat) (first : String × Nat)
  | chainedComparison
  | sizedTemplate
  | missingTerminator
  | unopenedBlock
deriving DecidableEq

def GrammarFault.reason : GrammarFault → String
  | expected what (some t) => "expected " ++ what.text ++ ", found '" ++ t.text ++ "'"
  | expected what none => "expected " ++ what.text ++ ", found end of input"
  | afterTerminator t => "unexpected '" ++ t.text ++ "' after terminating '.'"
  | headMismatch (name, arity) (firstName, firstArity) =>
    "head mismatch: " ++ name ++ "/" ++ Nat.repr arity ++ " does not match " ++ firstName ++ "/"
      ++ Nat.repr firstArity
  | chainedComparison => "comparison operators do not chain"
  | sizedTemplate => "binary comprehension template cannot carry a size or type"
  | missingTerminator => "missing terminating '.'"
  | unopenedBlock => "snippet closes a block it did not open"

/-- A fault, where it was noticed, and the construct that was being read there. -/
structure GrammarError where
  context : GrammarContext
  fault : GrammarFault
  span : Span
deriving DecidableEq

end ErlangFragment
