import ErlangFragment.Layout
import ErlangFragment.Tree

/-! The layout of trees. It has parentheses where the tree would otherwise be read differently, and
where an operand follows an operator without them the binding powers keep the two together. -/

namespace ErlangFragment.Printer

open Layout

/-- The operator of an expression with two operands; `none` inside is `=`. -/
def power? : Expr → Option BindingPower
  | .matchExpr _ _ => some matchPower
  | .binaryOp op _ _ => some op.power
  | _ => none

def isComparison : Expr → Bool
  | .binaryOp op _ _ => op.isComparison
  | _ => false

def isCatch : Expr → Bool
  | .catchExpr _ => true
  | _ => false

/-- Whether the left operand of an operator stands in parentheses. A comparison never stands
directly beside another one. -/
def leftNeedsParens (p : BindingPower) (comparison : Bool) (lhs : Expr) : Bool :=
  match power? lhs with
  | some inner => inner.right ≤ p.left || (comparison && isComparison lhs)
  | none => isCatch lhs

/-- Whether the right operand of an operator stands in parentheses. -/
def rightNeedsParens (p : BindingPower) (rhs : Expr) : Bool :=
  match power? rhs with
  | some inner => inner.left < p.right
  | none => isCatch rhs

/-- Whether the operand of an operator before it stands in parentheses. -/
def operandNeedsParens (e : Expr) : Bool := (power? e).isSome || isCatch e

/-- Whether a callee, a module or the base of a map or record stands in parentheses. -/
def baseNeedsParens : Expr → Bool
  | .unaryOp _ _ => true
  | e => operandNeedsParens e

/-- Expressions of one token. -/
def isBare : Expr → Bool
  | .var _ | .integer _ | .float _ | .char _ | .string _ | .atom _ => true
  | _ => false

def atom (name : String) : Layout := [.token (.atom name)]

def var (name : String) : Layout := [.token (.var name)]

/-- Macro names that look like a variable are written without quotes. -/
def macroName (name : String) : Layout :=
  match name.toList with
  | c :: _ => if isVariableStart c then var name else atom name
  | [] => atom name

/-- The name of a field. The one that stands for all others is no atom. -/
def fieldName (name : String) : Layout := if name = "_" then var name else atom name

def mapOp : MapOp → Token
  | .assoc => .symbol .fatArrow
  | .exact => .symbol .colonEqual

def segmentType (t : SegmentType) : Layout :=
  atom t.name ++
    match t.arg with
    | some n => symbol .colon ++ [.token (.integer (.small n))]
    | none => []

def segmentTypes : List SegmentType → Layout
  | [] => []
  | ts => symbol .slash ++ join (symbol .minus) (ts.map segmentType)

def guardSequence (gs : List Layout) : Layout := join (symbol .semicolon ++ [.blank]) gs

/-- The arrow and the body of a clause, each expression on a line of its own. -/
def arrowBody (level : Nat) (body : List Layout) : Layout :=
  [.blank, .token (.symbol .arrow)] ++ lines (level + 1) .comma body

/-- How the patterns of a clause are written. -/
inductive Head
  | args | patterns | catchPatterns | guardsOnly

def clauseLayout (head : Head) (level : Nat) (patterns guards body : List Layout) : Layout :=
  let whenGuards :=
    match guards with
    | [] => []
    | _ => spaced (.keyword .when) ++ guardSequence guards
  let start :=
    match head with
    | .args => parens (commas patterns) ++ whenGuards
    | .patterns => commas patterns ++ whenGuards
    | .catchPatterns => join (symbol .colon) patterns ++ whenGuards
    | .guardsOnly => guardSequence guards
  start ++ arrowBody level body

/-- The closing `end` on a line of its own. -/
def endLine (level : Nat) : Layout := [.newline level, .token (.keyword .end_)]

/-- A part of `try` or `receive` that is left out if there is nothing in it. -/
def section_ (level : Nat) (word : Keyword) (content : Layout) : Layout :=
  match content with
  | [] => []
  | _ => [.newline level, .token (.keyword word)] ++ content

/-- A `fun` with its clauses, each of them behind the name if it has one. -/
def funLayout (level : Nat) (name : Layout) (clauses : List Layout) : Layout :=
  let heads :=
    match clauses with
    | [] => []
    | _ => .blank :: join (symbol .semicolon ++ [.newline (level + 1)]) (clauses.map (name ++ ·))
  keyword .fun_ ++ heads ++ endLine level

mutual

/-- The layout of an expression on a line with the given level of indentation. -/
def node (level : Nat) : Expr → Layout
  | .integer n => [.token (.integer n)]
  | .float x => [.token (.float x)]
  | .char c => [.token (.char c)]
  | .string s => [.token (.string s)]
  | .atom a => atom a
  | .var v => var v
  | .tuple es => enclose .leftBrace .rightBrace (commas (exprs level es))
  | .list es tail =>
      enclose .leftBracket .rightBracket (commas (exprs level es) ++ listTail level tail)
  | .binary ss => enclose .lessLess .greaterGreater (commas (segments level ss))
  | .map b fs =>
    optionalBase level b ++ symbol .hash ++
      enclose .leftBrace .rightBrace (commas (mapFields level fs))
  | .record b n fs =>
    optionalBase level b ++ symbol .hash ++ atom n
      ++ enclose .leftBrace .rightBrace (commas (recordFields level fs))
  | .recordIndex n f => symbol .hash ++ atom n ++ symbol .dot ++ atom f
  | .recordAccess b n f => base level b ++ symbol .hash ++ atom n ++ symbol .dot ++ atom f
  | .matchExpr p v =>
    parensIf (leftNeedsParens matchPower false p.node) (expr level p) ++ spaced (.symbol .equal)
      ++ parensIf (rightNeedsParens matchPower v.node) (expr level v)
  | .binaryOp op l r =>
    parensIf (leftNeedsParens op.power op.isComparison l.node) (expr level l) ++ spaced op.token
      ++ parensIf (rightNeedsParens op.power r.node) (expr level r)
  | .unaryOp op e =>
      [.token op.token, .blank] ++ parensIf (operandNeedsParens e.node) (expr level e)
  | .call f args => base level f ++ parens (commas (exprs level args))
  | .remote m f => base level m ++ symbol .colon ++ bare level f
  | .block es => keyword .begin ++ lines (level + 1) .comma (exprs (level + 1) es) ++ endLine level
  | .caseExpr e cs =>
    keyword .case ++ [.blank] ++ expr level e ++ [.blank] ++ keyword .of
      ++ lines (level + 1) .semicolon (clauses .patterns (level + 1) cs) ++ endLine level
  | .ifExpr cs =>
    keyword .if_ ++ lines (level + 1) .semicolon (clauses .guardsOnly (level + 1) cs) ++
      endLine level
  | .receiveExpr cs a =>
    keyword .receive ++ lines (level + 1) .semicolon (clauses .patterns (level + 1) cs)
      ++ section_ level .after (after level a) ++ endLine level
  | .tryExpr es os cs a =>
    keyword .try_ ++ lines (level + 1) .comma (exprs (level + 1) es)
      ++ section_ level .of (lines (level + 1) .semicolon (clauses .patterns (level + 1) os))
      ++ section_ level .catch_ (lines (level + 1) .semicolon
        (clauses .catchPatterns (level + 1) cs))
      ++ section_ level .after (lines (level + 1) .comma (exprs (level + 1) a)) ++ endLine level
  | .catchExpr e => keyword .catch_ ++ [.blank] ++ expr level e
  | .listComp e qs =>
    enclose .leftBracket .rightBracket
      (expr level e ++ spaced (.symbol .pipePipe) ++ commas (qualifiers level qs))
  | .binaryComp e qs =>
    enclose .lessLess .greaterGreater
      (bare level e ++ spaced (.symbol .pipePipe) ++ commas (qualifiers level qs))
  | .funExpr none cs => funLayout level [] (clauses .args (level + 1) cs)
  | .funExpr (some n) cs => funLayout level (var n) (clauses .args (level + 1) cs)
  | .funRef m f a =>
    keyword .fun_ ++ [.blank] ++ funModule level m ++ expr level f ++ symbol .slash ++ expr level a
  | .macroUse n none => symbol .question ++ macroName n
  | .macroUse n (some args) =>
    symbol .question ++ macroName n ++ parens (commas (exprs level args))

def expr (level : Nat) : Located Expr → Layout
  | ⟨e, _⟩ => node level e

def exprs (level : Nat) : List (Located Expr) → List Layout
  | [] => []
  | e :: es => expr level e :: exprs level es

/-- A callee, a module or the base of a map or record. A remote callee stands without
parentheses. -/
def base (level : Nat) : Located Expr → Layout
  | ⟨e, _⟩ => parensIf (baseNeedsParens e) (node level e)

/-- What the grammar has only as one token, or in parentheses. -/
def bare (level : Nat) : Located Expr → Layout
  | ⟨e, _⟩ => parensIf (!isBare e) (node level e)

def optionalBase (level : Nat) : Option (Located Expr) → Layout
  | none => []
  | some e => base level e

def listTail (level : Nat) : Option (Located Expr) → Layout
  | none => []
  | some e => spaced (.symbol .pipe) ++ expr level e

def funModule (level : Nat) : Option (Located Expr) → Layout
  | none => []
  | some e => expr level e ++ symbol .colon

def segmentSize (level : Nat) : Option (Located Expr) → Layout
  | none => []
  | some e => symbol .colon ++ bare level e

def guards (level : Nat) : List (List (Located Expr)) → List Layout
  | [] => []
  | g :: gs => commas (exprs level g) :: guards level gs

def clauses (head : Head) (level : Nat) : List (Located Clause) → List Layout
  | [] => []
  | ⟨⟨ps, gs, body⟩, _⟩ :: cs =>
    clauseLayout head level (exprs level ps) (guards level gs) (exprs (level + 1) body)
      :: clauses head level cs

def segments (level : Nat) : List Segment → List Layout
  | [] => []
  | ⟨value, size, types⟩ :: ss =>
    (bare level value ++ segmentSize level size ++ segmentTypes types) :: segments level ss

def mapFields (level : Nat) : List MapField → List Layout
  | [] => []
  | ⟨key, op, value⟩ :: fs =>
    (expr level key ++ spaced (mapOp op) ++ expr level value) :: mapFields level fs

def recordFields (level : Nat) : List RecordField → List Layout
  | [] => []
  | ⟨n, value⟩ :: fs =>
    (fieldName n.node ++ spaced (.symbol .equal) ++ expr level value) :: recordFields level fs

def qualifiers (level : Nat) : List Qualifier → List Layout
  | [] => []
  | .generator p e :: qs =>
    (expr level p ++ spaced (.symbol .leftArrow) ++ expr level e) :: qualifiers level qs
  | .binaryGenerator p e :: qs =>
    (expr level p ++ spaced (.symbol .leftDoubleArrow) ++ expr level e) :: qualifiers level qs
  | .filter e :: qs => expr level e :: qualifiers level qs

def after (level : Nat) : Option After → Layout
  | none => []
  | some ⟨timeout, body⟩ =>
    .newline (level + 1) :: expr (level + 1) timeout
      ++ arrowBody (level + 1) (exprs (level + 2) body)

end

/-- Tokens with blanks between them, but none before or behind a dot, which would end the form. -/
def rawTokens (afterDot : Bool) : List Token → Layout
  | [] => []
  | t :: ts =>
    let isDot := decide (t = .symbol .dot)
    (if afterDot || isDot then [.token t] else [.blank, .token t]) ++ rawTokens isDot ts

/-- The value of an attribute. Expressions stand in parentheses, tokens as they came. -/
def attributeValue : AttributeValue → Layout
  | .exprs [] => []
  | .exprs args => parens (commas (exprs 0 args))
  | .tokens ts => rawTokens false ts

/-- A form through its terminator. -/
def form : Form → Layout
  | .function name _ cs =>
    join (symbol .semicolon ++ [.newline 0]) ((clauses .args 0 cs).map (atom name.node ++ ·))
      ++ [.token .terminator]
  | .attribute name value =>
    symbol .minus ++ atom name.node ++ attributeValue value ++ [.token .terminator]

/-- A form on lines of its own, after an empty line if it is a function. -/
def laterForm : Form → Layout
  | .function name arity cs => .newline 0 :: form (.function name arity cs) ++ [.newline 0]
  | .attribute name value => form (.attribute name value) ++ [.newline 0]

/-- Forms with a line break behind each of them. -/
def forms : List (Located Form) → Layout
  | [] => []
  | f :: fs => form f.node ++ [.newline 0] ++ fs.flatMap fun g => laterForm g.node

end ErlangFragment.Printer

namespace ErlangFragment

/-- The text of an expression. -/
def prettyExpr (e : Located Expr) : String := (Printer.expr 0 e).text

/-- The text of forms. -/
def prettyForms (fs : List (Located Form)) : String := (Printer.forms fs).text

end ErlangFragment
