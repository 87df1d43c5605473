import ErlangFragment.Json
import ErlangFragment.Tree

/-! Tokens and trees as JSON. An alternative with fields is an object with one member, named for the
alternative; one without is a string. -/

namespace ErlangFragment.Encoding

def span (s : Span) : Json :=
  .object [("start", .nat s.start), ("end", .nat s.stop), ("line", .nat s.line)]

/-- A value with its span. -/
def located (node : Json) (s : Span) : Json := .object [("node", node), ("span", span s)]

def name (n : Located String) : Json := located (.string n.node) n.span

def variant (label : String) (value : Json) : Json := .object [(label, value)]

def fields (label : String) (members : List (String × Json)) : Json :=
  variant label (.object members)

def integer : IntegerLiteral → Json
  | .small n => .integer n
  | .big t => .string t

def character (c : Char) : Json := .string (String.singleton c)

def keywordName : Keyword → String
  | .after => "After"
  | .and => "And"
  | .andalso => "Andalso"
  | .band => "Band"
  | .begin => "Begin"
  | .bnot => "Bnot"
  | .bor => "Bor"
  | .bsl => "Bsl"
  | .bsr => "Bsr"
  | .bxor => "Bxor"
  | .case => "Case"
  | .catch_ => "Catch"
  | .div => "Div"
  | .end_ => "End"
  | .fun_ => "Fun"
  | .if_ => "If"
  | .not => "Not"
  | .of => "Of"
  | .or => "Or"
  | .orelse => "Orelse"
  | .receive => "Receive"
  | .rem => "Rem"
  | .try_ => "Try"
  | .when => "When"
  | .xor => "Xor"

def symbolName : Symbol → String
  | .plus => "Plus"
  | .plusPlus => "PlusPlus"
  | .minus => "Minus"
  | .minusMinus => "MinusMinus"
  | .star => "Star"
  | .slash => "Slash"
  | .equal => "Eq"
  | .equalEqual => "EqEq"
  | .slashEqual => "SlashEq"
  | .equalColonEqual => "EqColonEq"
  | .equalSlashEqual => "EqSlashEq"
  | .less => "Lt"
  | .greater => "Gt"
  | .equalLess => "LtEq"
  | .greaterEqual => "GtEq"
  | .bang => "Bang"
  | .question => "Question"
  | .hash => "Hash"
  | .leftParen => "LParen"
  | .rightParen => "RParen"
  | .leftBrace => "LBrace"
  | .rightBrace => "RBrace"
  | .leftBracket => "LBracket"
  | .rightBracket => "RBracket"
  | .lessLess => "LtLt"
  | .greaterGreater => "GtGt"
  | .comma => "Comma"
  | .semicolon => "Semicolon"
  | .colon => "Colon"
  | .colonColon => "ColonColon"
  | .colonEqual => "ColonEq"
  | .pipe => "Pipe"
  | .pipePipe => "PipePipe"
  | .arrow => "Arrow"
  | .fatArrow => "FatArrow"
  | .leftArrow => "LArrow"
  | .leftDoubleArrow => "LDoubleArrow"
  | .dotDotDot => "DotDotDot"
  | .dotDot => "DotDot"
  | .dot => "Dot"

def token : Token → Json
  | .keyword k => .string (keywordName k)
  | .integer n => variant "Integer" (integer n)
  | .float x => variant "Float" (.float x)
  | .char c => variant "Char" (character c)
  | .string s => variant "String" (.string s)
  | .atom a => variant "Atom" (.string a)
  | .var v => variant "Var" (.string v)
  | .symbol s => .string (symbolName s)
  | .terminator => .string "Terminator"
  | .comment => .string "Comment"

def binaryOpName : BinaryOp → String
  | .send => "Send"
  | .orelse => "Orelse"
  | .andalso => "Andalso"
  | .eq => "Eq"
  | .neq => "Neq"
  | .exactEq => "ExactEq"
  | .exactNeq => "ExactNeq"
  | .lt => "Lt"
  | .ltEq => "LtEq"
  | .gt => "Gt"
  | .gtEq => "GtEq"
  | .append => "Append"
  | .subtract => "Subtract"
  | .add => "Add"
  | .sub => "Sub"
  | .bor => "Bor"
  | .bxor => "Bxor"
  | .bsl => "Bsl"
  | .bsr => "Bsr"
  | .or => "Or"
  | .xor => "Xor"
  | .mul => "Mul"
  | .div => "Div"
  | .intDiv => "IntDiv"
  | .rem => "Rem"
  | .band => "Band"
  | .and => "And"

def unaryOpName : UnaryOp → String
  | .plus => "Plus"
  | .neg => "Neg"
  | .bnot => "Bnot"
  | .not => "Not"

def mapOpName : MapOp → String
  | .assoc => "Assoc"
  | .exact => "Exact"

def segmentType (t : SegmentType) : Json :=
  .object [("name", .string t.name), ("arg", (t.arg.map Json.integer).getD .null)]

mutual

def node : Expr → Json
  | .integer n => variant "Integer" (integer n)
  | .float x => variant "Float" (.float x)
  | .char c => variant "Char" (character c)
  | .string s => variant "String" (.string s)
  | .atom a => variant "Atom" (.string a)
  | .var v => variant "Var" (.string v)
  | .tuple es => variant "Tuple" (.array (exprs es))
  | .list es tail => fields "List" [("elements", .array (exprs es)), ("tail", optional tail)]
  | .binary ss => variant "Binary" (.array (segments ss))
  | .map base fs => fields "Map" [("base", optional base), ("fields", .array (mapFields fs))]
  | .record base n fs =>
    fields "Record" [("base", optional base), ("name", .string n),
      ("fields", .array (recordFields fs))]
  | .recordIndex n f => fields "RecordIndex" [("name", .string n), ("field", .string f)]
  | .recordAccess base n f =>
    fields "RecordAccess" [("base", expr base), ("name", .string n), ("field", .string f)]
  | .matchExpr p v => fields "Match" [("pattern", expr p), ("value", expr v)]
  | .binaryOp op l r =>
    fields "BinOp" [("op", .string (binaryOpName op)), ("lhs", expr l), ("rhs", expr r)]
  | .unaryOp op e => fields "UnaryOp" [("op", .string (unaryOpName op)), ("operand", expr e)]
  | .call f args => fields "Call" [("function", expr f), ("args", .array (exprs args))]
  | .remote m f => fields "Remote" [("module", expr m), ("function", expr f)]
  | .block es => variant "Block" (.array (exprs es))
  | .caseExpr e cs => fields "Case" [("subject", expr e), ("clauses", .array (clauses cs))]
  | .ifExpr cs => variant "If" (.array (clauses cs))
  | .receiveExpr cs a => fields "Receive" [("clauses", .array (clauses cs)), ("after", after a)]
  | .tryExpr es os cs a =>
    fields "Try" [("body", .array (exprs es)), ("of_clauses", .array (clauses os)),
      ("catch_clauses", .array (clauses cs)), ("after", .array (exprs a))]
  | .catchExpr e => variant "Catch" (expr e)
  | .listComp e qs =>
      fields "ListComp" [("template", expr e), ("qualifiers", .array (qualifiers qs))]
  | .binaryComp e qs =>
      fields "BinComp" [("template", expr e), ("qualifiers", .array (qualifiers qs))]
  | .funExpr n cs =>
    fields "Fun" [("name", (n.map Json.string).getD .null), ("clauses", .array (clauses cs))]
  | .funRef m f a =>
      fields "FunRef" [("module", optional m), ("function", expr f), ("arity", expr a)]
  | .macroUse n none => fields "Macro" [("name", .string n), ("args", .null)]
  | .macroUse n (some args) => fields "Macro" [("name", .string n), ("args", .array (exprs args))]

def expr : Located Expr → Json
  | ⟨e, s⟩ => located (node e) s

def exprs : List (Located Expr) → List Json
  | [] => []
  | e :: es => expr e :: exprs es

def optional : Option (Located Expr) → Json
  | none => .null
  | some e => expr e

def guards : List (List (Located Expr)) → List Json
  | [] => []
  | g :: gs => .array (exprs g) :: guards gs

def clauses : List (Located Clause) → List Json
  | [] => []
  | ⟨⟨ps, gs, body⟩, s⟩ :: cs =>
    located
      (.object [("patterns", .array (exprs ps)), ("guards", .array (guards gs)),
        ("body", .array (exprs body))]) s :: clauses cs

def segments : List Segment → List Json
  | [] => []
  | ⟨value, size, types⟩ :: ss =>
    .object [("value", expr value), ("size", optional size),
      ("types", .array (types.map segmentType))]
      :: segments ss

def mapFields : List MapField → List Json
  | [] => []
  | ⟨key, op, value⟩ :: fs =>
    .object [("key", expr key), ("op", .string (mapOpName op)), ("value", expr value)] ::
      mapFields fs

def recordFields : List RecordField → List Json
  | [] => []
  | ⟨n, value⟩ :: fs => .object [("name", name n), ("value", expr value)] :: recordFields fs

def qualifiers : List Qualifier → List Json
  | [] => []
  | .generator p e :: qs =>
      fields "Generator" [("pattern", expr p), ("source", expr e)] :: qualifiers qs
  | .binaryGenerator p e :: qs =>
    fields "BinGenerator" [("pattern", expr p), ("source", expr e)] :: qualifiers qs
  | .filter e :: qs => variant "Filter" (expr e) :: qualifiers qs

def after : Option After → Json
  | none => .null
  | some ⟨timeout, body⟩ => .object [("timeout", expr timeout), ("body", .array (exprs body))]

end

def attributeValue : AttributeValue → Json
  | .exprs args => variant "Exprs" (.array (exprs args))
  | .tokens ts => variant "Tokens" (.array (ts.map token))

def form : Located Form → Json
  | ⟨.function n arity cs, s⟩ =>
    located (fields "Function" [("name", name n), ("arity", .nat arity),
      ("clauses", .array (clauses cs))]) s
  | ⟨.attribute n value, s⟩ =>
    located (fields "Attribute" [("name", name n), ("value", attributeValue value)]) s

end ErlangFragment.Encoding
