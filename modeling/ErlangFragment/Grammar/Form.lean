import ErlangFragment.Grammar.Expression
import ErlangFragment.Grammar.Parser

/-! The grammar of forms and of expression sequences that end in a terminator, and the cutting of a
token sequence into forms. -/

namespace ErlangFragment

namespace Grammar

open ErlangFragment.Reader

def functionClause {m : Type → Type} [Monad m] [Reader m] (rules : Rules m) :
    m (Located String × Located Clause) := do
  let name ← expectAtom
  let patterns ← argPatterns rules
  let clause ← clauseRest rules patterns
  return (name, ⟨clause, name.span.through (← previous)⟩)

section

variable (rules : Rules Parser)

/-- A further clause, which must have the name and arity of the first. -/
def sameFunctionClause (first : String × Nat) : Parser (Located Clause) := do
  let (name, clause) ← functionClause rules
  let found := (name.node, clause.node.patterns.length)
  if found ≠ first then fail (.headMismatch found first) name.span
  return clause

def functionForm : Parser (Located Form) := do
  let (name, first) ← functionClause rules
  let arity := first.node.patterns.length
  let others ← bounded (more (.symbol .semicolon) (sameFunctionClause rules (name.node, arity)))
  return ⟨.function name arity (first :: others), name.span.through (← previous)⟩

/-- Attributes whose arguments are types or otherwise no expressions. -/
def rawAttributes : List String :=
  ["spec", "type", "opaque", "nominal", "callback", "record", "define"]

/-- An atom, or a reserved word as in `-if(...)`. -/
def attributeName : Parser (Located String) := do
  match ← next? with
  | some ⟨.atom name, span⟩ =>
    advance
    return ⟨name, span⟩
  | some ⟨t, span⟩ =>
    if isKeyword t.text then
      advance
      return ⟨t.text, span⟩
    else unexpected .attributeName
  | none => unexpected .attributeName

/-- The tokens before the next terminator. -/
def rawRun (previous : Span) : List (Located Token) → List Token × Cursor
  | [] => ([], ⟨previous, []⟩)
  | ⟨t, span⟩ :: ts =>
    if t = .terminator then ([], ⟨previous, ⟨t, span⟩ :: ts⟩)
    else
      let (tokens, c) := rawRun span ts
      (t :: tokens, c)

def rawTokens : Parser (List Token) := fun _ c => .ok (rawRun c.previous c.rest)

/-- Expressions between parentheses, or nothing at all. -/
def attributeArgs : Parser (List (Located Expr)) := do
  if ← eat (.symbol .leftParen) then
    if ← eat (.symbol .rightParen) then return []
    else
      let args ← exprs rules
      let _ ← expect (.symbol .rightParen)
      return args
  else return []

def attributeValue (name : String) : Parser AttributeValue := do
  if rawAttributes.contains name then
    let tokens ← rawTokens
    return .tokens tokens
  else
    let args ← attributeArgs rules
    return .exprs args

def attributeForm : Parser (Located Form) := do
  let start ← expect (.symbol .minus)
  let name ← attributeName
  let value ← attributeValue rules name.node
  return ⟨.attribute name value, start.through (← previous)⟩

end

/-- A form without its terminator. -/
def declaration : Parser (Located Form) := do
  if ← check (.symbol .minus) then inContext .attribute (withRules attributeForm)
  else inContext .function (withRules functionForm)

/-- One form and its terminator. -/
def form : Parser (Located Form) := do
  let f ← declaration
  let _ ← expect .terminator
  expectEnd
  return f

/-- Expressions and a terminator, as a block. -/
def expressionSequence : Parser (Located Expr) :=
  inContext .expressionSequence do
    let start ← position
    let body ← withRules exprs
    let stop ← expect .terminator
    expectEnd
    return ⟨.block body, start.through stop⟩

/-- What a token adds to the depth of brackets. The depth is a word: it wraps around where a part
has more brackets than a word can count. -/
def bracketStep : Token → Int32
  | .symbol .leftParen | .symbol .leftBracket | .symbol .leftBrace | .symbol .lessLess => 1
  | .symbol .rightParen | .symbol .rightBracket | .symbol .rightBrace
  | .symbol .greaterGreater => -1
  | _ => 0

/-- Cuts behind every terminator at which no bracket is open. Gives the parts and the tokens after
the last of them; `started` holds the tokens of the part that has begun, the latest first. -/
def cutFrom (depth : Int32) (started : List (Located Token)) :
    List (Located Token) → List (List (Located Token)) × List (Located Token)
  | [] => ([], started.reverse)
  | t :: ts =>
    if t.node = .terminator && depth ≤ 0 then
      let (parts, rest) := cutFrom 0 [] ts
      ((t :: started).reverse :: parts, rest)
    else cutFrom (depth + bracketStep t.node) (t :: started) ts

/-- The token sequences of the single forms. -/
def cutForms (tokens : List (Located Token)) : Except GrammarError (List (List (Located Token))) :=
  let (parts, rest) := cutFrom 0 [] tokens
  match rest.getLast? with
  | some last => .error ⟨.declaration, .missingTerminator, last.span.endpoint⟩
  | none => .ok parts

end Grammar

/-- The forms that the tokens make up. One that is wrong spoils the whole sequence. -/
def parseForms (tokens : List (Located Token)) : Except GrammarError (List (Located Form)) := do
  (← Grammar.cutForms tokens).mapM Grammar.form.run

/-- The block of the expressions before the terminator, which must be the last token. -/
def parseExpressionSequence (tokens : List (Located Token)) : Except GrammarError (Located Expr) :=
  Grammar.expressionSequence.run tokens

end ErlangFragment
