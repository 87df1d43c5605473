import ErlangFragment.Grammar.Reader
import ErlangFragment.Tree

/-! The grammar of expressions. The rules call each other through `rules`, always after a token has
been read, so the number of tokens left bounds the depth. -/

namespace ErlangFragment.Grammar

open ErlangFragment.Reader

/-- The nonterminals that rules refer back to. -/
inductive Nonterminal
  | expression
  /-- Operands joined by operators that hold their left operand at least this tightly. -/
  | binary (minimum : Nat)
  | unary
  | primary

/-- A parser for every nonterminal. -/
abbrev Rules (m : Type → Type) := Nonterminal → m (Located Expr)

section

variable {m : Type → Type} [Monad m] [Reader m] (rules : Rules m)

/-- One or more expressions, with commas between them. -/
def exprs : m (List (Located Expr)) := separated (.symbol .comma) (rules .expression)

/-! ### Clauses -/

/-- Patterns in parentheses. There may be none. -/
def argPatterns : m (List (Located Expr)) := do
  let _ ← expect (.symbol .leftParen)
  if ← eat (.symbol .rightParen) then return []
  let patterns ← inContext .pattern (exprs rules)
  let _ ← expect (.symbol .rightParen)
  return patterns

/-- Alternatives with semicolons between them, each of one or more tests. -/
def guardSequence : m (List (List (Located Expr))) :=
  inContext .guard (separated (.symbol .semicolon) (exprs rules))

/-- The guards of a clause, which has none without the word `when`. -/
def guards : m (List (List (Located Expr))) := do
  if ← eat (.keyword .when) then guardSequence rules else return []

/-- What follows the patterns of a clause. -/
def clauseRest (patterns : List (Located Expr)) : m Clause := do
  let gs ← guards rules
  let _ ← expect (.symbol .arrow)
  let body ← exprs rules
  return ⟨patterns, gs, body⟩

/-- A clause of `case`, `receive` or `try`. -/
def caseClause : m (Located Clause) :=
  inContext .clause <| spanned do
    let pattern ← rules .expression
    clauseRest rules [pattern]

def caseClauses : m (List (Located Clause)) := separated (.symbol .semicolon) (caseClause rules)

/-- Class, reason and stacktrace. A single pattern is a reason of class `throw`, and a stacktrace
that is not asked for is `_`. -/
def catchPatterns : m (List (Located Expr)) := do
  let first ← rules .expression
  if ← eat (.symbol .colon) then
    let reason ← rules .expression
    if ← eat (.symbol .colon) then
      let stack ← rules .expression
      return [first, reason, stack]
    else return [first, reason, ⟨.var "_", reason.span⟩]
  else return [⟨.atom "throw", first.span⟩, first, ⟨.var "_", first.span⟩]

/-- A catch clause. Among its patterns a colon is a separator and forms no remote call. -/
def catchClause : m (Located Clause) :=
  inContext .catchClause <| spanned do
    let patterns ← withColonSeparating true (catchPatterns rules)
    clauseRest rules patterns

/-- The name of a `fun` before the patterns of a clause. -/
def repeatedName : Option String → m Unit
  | none => return ()
  | some v => do if (← peek?) = some (.var v) then advance else unexpected (.funName v)

/-- A clause of a `fun`, which repeats the name of a named one. -/
def funClause (name : Option String) : m (Located Clause) :=
  inContext .funClause <| spanned do
    repeatedName name
    let patterns ← argPatterns rules
    clauseRest rules patterns

def funClauses (name : Option String) : m (List (Located Clause)) :=
  separated (.symbol .semicolon) (funClause rules name)

/-- A clause of `if`: guards without the word `when`, and no patterns. -/
def ifClause : m (Located Clause) :=
  inContext .ifClause <| spanned do
    let gs ← guardSequence rules
    let _ ← expect (.symbol .arrow)
    let body ← exprs rules
    return ⟨[], gs, body⟩

/-! ### Calls, maps and records -/

/-- Arguments in parentheses. A colon among them forms remote calls again. -/
def callArgs : m (List (Located Expr)) := do
  let _ ← expect (.symbol .leftParen)
  if ← eat (.symbol .rightParen) then return []
  let args ← withColonSeparating false (exprs rules)
  let _ ← expect (.symbol .rightParen)
  return args

/-- Fields between braces. -/
def braced {α : Type} (field : m α) : m (List α) := do
  let _ ← expect (.symbol .leftBrace)
  if ← eat (.symbol .rightBrace) then return []
  let fields ← separated (.symbol .comma) field
  let _ ← expect (.symbol .rightBrace)
  return fields

def fieldOperator : m MapOp := do
  if ← eat (.symbol .fatArrow) then return .assoc
  else if ← eat (.symbol .colonEqual) then return .exact
  else unexpected .fieldOperator

def mapField : m MapField := do
  let key ← rules .expression
  let op ← fieldOperator
  let value ← rules .expression
  return ⟨key, op, value⟩

/-- The name of a field in a record. It may be the variable `_`, or any other one. -/
def fieldName : m (Located String) := do
  match ← next? with
  | some ⟨.atom name, span⟩ =>
    advance
    return ⟨name, span⟩
  | some ⟨.var name, span⟩ =>
    advance
    return ⟨name, span⟩
  | _ => unexpected .recordFieldName

def recordField : m RecordField := do
  let name ← fieldName
  let _ ← expect (.symbol .equal)
  let value ← rules .expression
  return ⟨name, value⟩

/-- A map, a record or the field of a record, alone or applied to what stands before it. -/
def hash (base : Option (Located Expr)) : m (Located Expr) := do
  let mark ← expect (.symbol .hash)
  let start := (base.map Located.span).getD mark
  if ← check (.symbol .leftBrace) then
    let fields ← inContext .map (braced (mapField rules))
    return ⟨.map base fields, start.through (← previous)⟩
  let name ← expectAtom
  if ← eat (.symbol .dot) then
    let field ← expectAtom
    match base with
    | some b => return ⟨.recordAccess b name.node field.node, start.through field.span⟩
    | none => return ⟨.recordIndex name.node field.node, start.through field.span⟩
  let fields ← inContext .record (braced (recordField rules))
  return ⟨.record base name.node fields, start.through (← previous)⟩

/-! ### Lists and binaries -/

def qualifier : m Qualifier := do
  let e ← rules .expression
  if ← eat (.symbol .leftArrow) then
    let source ← rules .expression
    return .generator e source
  else if ← eat (.symbol .leftDoubleArrow) then
    let source ← rules .expression
    return .binaryGenerator e source
  else return .filter e

def qualifiers : m (List Qualifier) :=
  inContext .comprehension (separated (.symbol .comma) (qualifier rules))

/-- What stands between the brackets of a list. -/
def listBody : m Expr := do
  if ← check (.symbol .rightBracket) then return .list [] none
  let first ← rules .expression
  if ← eat (.symbol .pipePipe) then
    let qs ← qualifiers rules
    return .listComp first qs
  let others ← bounded (more (.symbol .comma) (rules .expression))
  if ← eat (.symbol .pipe) then
    let tail ← rules .expression
    return .list (first :: others) (some tail)
  else return .list (first :: others) none

/-- A type with an optional number behind a colon. -/
def segmentType : m SegmentType := do
  let name ← expectAtom
  if ← eat (.symbol .colon) then
    match ← peek? with
    | some (.integer (.small n)) =>
      advance
      return ⟨name.node, some n⟩
    | _ => unexpected .integer
  else return ⟨name.node, none⟩

/-- The value of a segment: a primary, possibly after one operator. -/
def segmentValue : m (Located Expr) := do
  match (← peek?).bind UnaryOp.ofToken? with
  | some op =>
    let start ← position
    advance
    let operand ← rules .primary
    return ⟨.unaryOp op operand, start.through operand.span⟩
  | none => rules .primary

def segmentSize : m (Option (Located Expr)) := do
  if ← eat (.symbol .colon) then
    let size ← rules .primary
    return some size
  else return none

def segmentTypes : m (List SegmentType) := do
  if ← eat (.symbol .slash) then separated (.symbol .minus) segmentType else return []

def segment : m Segment :=
  inContext .binaryElement do
    let value ← segmentValue rules
    let size ← segmentSize rules
    let types ← segmentTypes
    return ⟨value, size, types⟩

/-- What stands between the brackets of a binary. -/
def binaryBody : m Expr := do
  if ← check (.symbol .greaterGreater) then return .binary []
  let first ← segment rules
  if ← check (.symbol .pipePipe) then
    if first.size.isSome || first.types ≠ [] then fail .sizedTemplate first.value.span
    else
      advance
      let qs ← qualifiers rules
      return .binaryComp first.value qs
  else
    let others ← bounded (more (.symbol .comma) (segment rules))
    return .binary (first :: others)

/-! ### Primaries -/

/-- An expression between two tokens, with the span from the one through the other. -/
def enclosed (opening closing : Token) (p : m Expr) : m (Located Expr) := do
  let start ← expect opening
  let e ← p
  let stop ← expect closing
  return ⟨e, start.through stop⟩

def tuple : m (Located Expr) :=
  enclosed (.symbol .leftBrace) (.symbol .rightBrace) do
    if ← check (.symbol .rightBrace) then return .tuple []
    return .tuple (← exprs rules)

/-- An explicit block. It is kept even around a single expression. -/
def block : m (Located Expr) :=
  enclosed (.keyword .begin) (.keyword .end_) do
    return .block (← inContext .beginBlock (exprs rules))

def caseExpr : m (Located Expr) :=
  enclosed (.keyword .case) (.keyword .end_) do
    let subject ← rules .expression
    let _ ← expect (.keyword .of)
    return .caseExpr subject (← caseClauses rules)

def ifExpr : m (Located Expr) :=
  enclosed (.keyword .if_) (.keyword .end_) do
    return .ifExpr (← separated (.symbol .semicolon) (ifClause rules))

def after? : m (Option After) := do
  if ← eat (.keyword .after) then
    let timeout ← rules .expression
    let _ ← expect (.symbol .arrow)
    let body ← exprs rules
    return some ⟨timeout, body⟩
  else return none

/-- The clauses of `receive`, which has none where `after` comes first. -/
def receiveClauses : m (List (Located Clause)) := do
  if ← check (.keyword .after) then return [] else caseClauses rules

def receiveExpr : m (Located Expr) :=
  enclosed (.keyword .receive) (.keyword .end_) do
    let clauses ← receiveClauses rules
    let after ← after? rules
    return .receiveExpr clauses after

/-- A part of `try` that is there if its word is. -/
def part {α : Type} (word : Keyword) (p : m (List α)) : m (List α) := do
  if ← eat (.keyword word) then p else return []

def catchClauses : m (List (Located Clause)) :=
  separated (.symbol .semicolon) (catchClause rules)

/-- A `try` needs a catch clause or an `after`. -/
def tryExpr : m (Located Expr) :=
  enclosed (.keyword .try_) (.keyword .end_) do
    let body ← exprs rules
    let ofClauses ← part .of (caseClauses rules)
    let catchClauses ← part .catch_ (catchClauses rules)
    let after ← part .after (exprs rules)
    if catchClauses.isEmpty && after.isEmpty then unexpected .catchOrAfter
    else return .tryExpr body ofClauses catchClauses after

def funBody (start : Span) (name : Option String) : m (Located Expr) := do
  let clauses ← funClauses rules name
  let stop ← expect (.keyword .end_)
  return ⟨.funExpr name clauses, start.through stop⟩

/-- `/arity` after the function of a reference. -/
def funArity (start : Span) (module : Option (Located Expr)) (function : Located Expr) :
    m (Located Expr) := do
  let _ ← expect (.symbol .slash)
  let arity ← rules .primary
  return ⟨.funRef module function arity, start.through arity.span⟩

def localReference (start : Span) : m (Located Expr) := do
  let function ← rules .primary
  funArity rules start none function

def remoteReference (start : Span) : m (Located Expr) := do
  let module ← rules .primary
  let _ ← expect (.symbol .colon)
  let function ← rules .primary
  funArity rules start (some module) function

/-- What follows the word `fun`. -/
inductive FunKind
  | clauses (name : Option String)
  | localReference
  | remoteReference

/-- What two tokens behind the word `fun` begin. -/
def funKind? : Option Token × Option Token → Option FunKind
  | (some (.symbol .leftParen), _) => some (.clauses none)
  | (some (.var name), some (.symbol .leftParen)) => some (.clauses (some name))
  | (some (.atom _), some (.symbol .slash)) => some .localReference
  | (some (.atom _), some (.symbol .colon)) => some .remoteReference
  | (some (.var _), some (.symbol .colon)) => some .remoteReference
  | _ => none

def funExpr : m (Located Expr) := do
  let start ← expect (.keyword .fun_)
  match funKind? (← peekTwo?) with
  | some (.clauses name) => funBody rules start name
  | some .localReference => localReference rules start
  | some .remoteReference => remoteReference rules start
  | none => unexpected .funOrReference

def macroName : m String := do
  match ← peek? with
  | some (.atom name) =>
    advance
    return name
  | some (.var name) =>
    advance
    return name
  | _ => unexpected .macroName

/-- A macro. Arguments belong to it only where a parenthesis follows the name. -/
def macroUse : m (Located Expr) := do
  let start ← expect (.symbol .question)
  let name ← macroName
  if ← check (.symbol .leftParen) then
    let args ← callArgs rules
    return ⟨.macroUse name (some args), start.through (← previous)⟩
  else return ⟨.macroUse name none, start.through (← previous)⟩

/-- The text of at most `n` strings that stand next to each other. -/
def stringTexts : Nat → m String
  | 0 => lastRound ""
  | n + 1 => do
    match ← peek? with
    | some (.string text) =>
      advance
      let texts ← stringTexts n
      return text ++ texts
    | _ => return ""

/-- Adjacent strings are one. -/
def strings : m (Located Expr) :=
  spanned do
    let text ← bounded stringTexts
    return .string text

/-- An expression in parentheses. It keeps its own span and leaves no node. -/
def parenthesized : m (Located Expr) := do
  let _ ← expect (.symbol .leftParen)
  let e ← withColonSeparating false (rules .expression)
  let _ ← expect (.symbol .rightParen)
  return e

/-- The expression that one token is. -/
def simple? : Token → Option Expr
  | .var name => some (.var name)
  | .atom name => some (.atom name)
  | .integer n => some (.integer n)
  | .float x => some (.float x)
  | .char c => some (.char c)
  | _ => none

/-- An expression that begins with the token and goes on behind it. -/
def compound : Token → m (Located Expr)
  | .string _ => strings
  | .symbol .leftParen => parenthesized rules
  | .symbol .leftBrace => tuple rules
  | .symbol .leftBracket => enclosed (.symbol .leftBracket) (.symbol .rightBracket) (listBody rules)
  | .symbol .lessLess => enclosed (.symbol .lessLess) (.symbol .greaterGreater) (binaryBody rules)
  | .symbol .hash => hash rules none
  | .keyword .begin => block rules
  | .keyword .case => caseExpr rules
  | .keyword .if_ => ifExpr rules
  | .keyword .receive => receiveExpr rules
  | .keyword .try_ => tryExpr rules
  | .keyword .fun_ => funExpr rules
  | .symbol .question => macroUse rules
  | _ => unexpected .expression

/-- An operand without the calls, maps and records applied to it. -/
def primary : m (Located Expr) := do
  match ← next? with
  | none => unexpected .expression
  | some ⟨t, span⟩ =>
    match simple? t with
    | some e =>
      advance
      return ⟨e, span⟩
    | none => compound rules t

/-! ### Operators -/

/-- A call of a function of the module. -/
def remoteCall (module : Located Expr) : m (Located Expr) := do
  advance
  let function ← rules .primary
  if ← check (.symbol .leftParen) then
    let remote : Located Expr := ⟨.remote module function, module.span.through function.span⟩
    let args ← callArgs rules
    return ⟨.call remote args, remote.span.through (← previous)⟩
  else unexpected .remoteArguments

/-- At most `n` calls, maps and records applied to `e`. -/
def postfixes : Nat → Located Expr → m (Located Expr)
  | 0, e => lastRound e
  | n + 1, e => do
    match ← peek? with
    | some (.symbol .leftParen) =>
      let args ← callArgs rules
      postfixes n ⟨.call e args, e.span.through (← previous)⟩
    | some (.symbol .colon) =>
      if ← colonSeparates then return e
      else postfixes n (← remoteCall rules e)
    | some (.symbol .hash) => postfixes n (← hash rules (some e))
    | _ => return e

/-- An operand: operators before a primary, and what is applied to the primary. -/
def unary : m (Located Expr) := do
  match (← peek?).bind UnaryOp.ofToken? with
  | some op =>
    let start ← position
    advance
    let operand ← rules .unary
    return ⟨.unaryOp op operand, start.through operand.span⟩
  | none =>
    let e ← primary rules
    bounded fun n => postfixes rules n e

/-- An operator between two operands; `none` is `=`. -/
def connective? : Token → Option (Option BinaryOp)
  | .symbol .equal => some none
  | t => (BinaryOp.ofToken? t).map some

def connectivePower : Option BinaryOp → BindingPower
  | none => matchPower
  | some op => op.power

def isComparison : Option BinaryOp → Bool
  | none => false
  | some op => op.isComparison

/-- The node of an operator, with the span over both operands. -/
def join (lhs rhs : Located Expr) : Option BinaryOp → Located Expr
  | none => ⟨.matchExpr lhs rhs, lhs.span.through rhs.span⟩
  | some op => ⟨.binaryOp op lhs rhs, lhs.span.through rhs.span⟩

/-- At most `n` operators that hold `lhs` and what grows from it tightly enough. -/
def operations (minimum : Nat) : Nat → Located Expr → Bool → m (Located Expr)
  | 0, lhs, _ => lastRound lhs
  | n + 1, lhs, afterComparison => do
    match ← next? with
    | none => return lhs
    | some ⟨t, span⟩ =>
      match connective? t with
      | none => return lhs
      | some op =>
        if (connectivePower op).left < minimum then return lhs
        else if isComparison op && afterComparison then fail .chainedComparison span
        else
          advance
          let rhs ← rules (.binary (connectivePower op).right)
          operations minimum n (join lhs rhs op) (isComparison op)

/-- An operand, and the operators after it that hold it tightly enough. -/
def binary (minimum : Nat) : m (Located Expr) := do
  let lhs ← unary rules
  bounded fun n => operations rules minimum n lhs false

/-- An expression. A `catch` takes all that follows as its operand. -/
def expression : m (Located Expr) := do
  if ← check (.keyword .catch_) then
    let start ← expect (.keyword .catch_)
    let inner ← rules .expression
    return ⟨.catchExpr inner, start.through inner.span⟩
  else binary rules 0

/-- The rules, given the rules for what stands behind the first token. -/
def step : Rules m
  | .expression => expression rules
  | .binary minimum => binary rules minimum
  | .unary => unary rules
  | .primary => primary rules

end

section

variable {m : Type → Type} [Monad m] [Reader m]

/-- The rules with at most `n` calls behind each other. -/
def within : Nat → Rules m
  | 0 => fun _ => lastCall
  | n + 1 => step (within n)

/-- Runs a part of the grammar with rules that have as many calls as it needs. -/
def withRules {α : Type} (p : Rules m → m α) : m α := bounded fun n => p (within n)

end

end ErlangFragment.Grammar
