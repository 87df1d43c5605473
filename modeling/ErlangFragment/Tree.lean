import ErlangFragment.Span
import ErlangFragment.Tree.Operator

/-! Trees of expressions and of forms. Patterns are expressions too, as in the grammar. -/

namespace ErlangFragment

/-- A type of a binary segment, such as `unit:8`. -/
structure SegmentType where
  name : String
  arg : Option Int
deriving DecidableEq

/-- How a field stands in a map: `=>` or `:=`. -/
inductive MapOp
  | assoc | exact
deriving DecidableEq

mutual

/-- An expression or a pattern. Parentheses leave no node, a call of a function of another module
has a `remote` as its callee, and `matchExpr` stands apart from the operators because its left
operand is a pattern. -/
inductive Expr where
  | integer (literal : IntegerLiteral)
  | float (value : Binary64)
  | char (value : Char)
  | string (text : String)
  | atom (name : String)
  | var (name : String)
  | tuple (elements : List (Located Expr))
  | list (elements : List (Located Expr)) (tail : Option (Located Expr))
  | binary (segments : List Segment)
  | map (base : Option (Located Expr)) (fields : List MapField)
  | record (base : Option (Located Expr)) (name : String) (fields : List RecordField)
  /-- The position of a field, `#name.field`. -/
  | recordIndex (name field : String)
  | recordAccess (base : Located Expr) (name field : String)
  | matchExpr (pattern value : Located Expr)
  | binaryOp (op : BinaryOp) (lhs rhs : Located Expr)
  | unaryOp (op : UnaryOp) (operand : Located Expr)
  | call (callee : Located Expr) (args : List (Located Expr))
  /-- A function of another module. The grammar has it only as a callee. -/
  | remote (module function : Located Expr)
  | block (body : List (Located Expr))
  | caseExpr (subject : Located Expr) (clauses : List (Located Clause))
  | ifExpr (clauses : List (Located Clause))
  | receiveExpr (clauses : List (Located Clause)) (after : Option After)
  | tryExpr (body : List (Located Expr)) (ofClauses catchClauses : List (Located Clause))
      (after : List (Located Expr))
  | catchExpr (inner : Located Expr)
  | listComp (template : Located Expr) (qualifiers : List Qualifier)
  | binaryComp (template : Located Expr) (qualifiers : List Qualifier)
  | funExpr (name : Option String) (clauses : List (Located Clause))
  | funRef (module : Option (Located Expr)) (function arity : Located Expr)
  | macroUse (name : String) (args : Option (List (Located Expr)))

/-- A clause of a function, `fun`, `case`, `receive`, `if` or `try`. Clauses of `if` have no
patterns, and catch clauses have three: class, reason and stacktrace. -/
structure Clause where
  patterns : List (Located Expr)
  /-- Alternatives, each of them a conjunction of tests. -/
  guards : List (List (Located Expr))
  body : List (Located Expr)

/-- An element of a binary: a value with an optional size and types, `X:8/integer`. -/
structure Segment where
  value : Located Expr
  size : Option (Located Expr)
  types : List SegmentType

/-- A field of a map. Its key is evaluated even where the map is a pattern. -/
structure MapField where
  key : Located Expr
  op : MapOp
  value : Located Expr

/-- A field with its value. The name `_` stands for all other fields. -/
structure RecordField where
  name : Located String
  value : Located Expr

/-- What stands behind the `||` of a comprehension. -/
inductive Qualifier where
  | generator (pattern source : Located Expr)
  | binaryGenerator (pattern source : Located Expr)
  | filter (test : Located Expr)

/-- The `after` of a `receive`. The one of a `try` has no timeout and is a list of expressions. -/
structure After where
  timeout : Located Expr
  body : List (Located Expr)

end

/-- The value of an attribute: expressions, or tokens where types stand. -/
inductive AttributeValue where
  | exprs (args : List (Located Expr))
  | tokens (tokens : List Token)

/-- A declaration of a module. -/
inductive Form where
  | function (name : Located String) (arity : Nat) (clauses : List (Located Clause))
  | attribute (name : Located String) (value : AttributeValue)

/-- The word that a dump of the tree has for a node. -/
def Expr.kindName : Expr → String
  | .integer _ => "integer"
  | .float _ => "float"
  | .char _ => "char"
  | .string _ => "string"
  | .atom _ => "atom"
  | .var _ => "variable"
  | .tuple _ => "tuple"
  | .list _ _ => "list"
  | .binary _ => "binary"
  | .map _ _ => "map"
  | .record _ _ _ => "record"
  | .recordIndex _ _ => "record_index"
  | .recordAccess _ _ _ => "record_field"
  | .matchExpr _ _ => "match"
  | .binaryOp _ _ _ => "op"
  | .unaryOp _ _ => "op"
  | .call _ _ => "call"
  | .remote _ _ => "remote"
  | .block _ => "block"
  | .caseExpr _ _ => "case"
  | .ifExpr _ => "if"
  | .receiveExpr _ _ => "receive"
  | .tryExpr _ _ _ _ => "try"
  | .catchExpr _ => "catch"
  | .listComp _ _ => "lc"
  | .binaryComp _ _ => "bc"
  | .funExpr _ _ => "fun"
  | .funRef _ _ _ => "fun_ref"
  | .macroUse _ _ => "macro"

namespace Form

def kindName : Form → String
  | .function _ _ _ => "function"
  | .attribute _ _ => "attribute"

/-- The name and arity that a function is known by. Attributes have no such identity. -/
def identity? : Form → Option (String × Nat)
  | .function name arity _ => some (name.node, arity)
  | .attribute _ _ => none

/-- `name/arity` of a function, `-name` of an attribute. -/
def title : Form → String
  | .function name arity _ => name.node ++ "/" ++ Nat.repr arity
  | .attribute name _ => "-" ++ name.node

end Form

end ErlangFragment
