import ErlangFragment.Tree

/-! Rewriting traversal of trees. It meets every span, every expression and every clause in the
order of the source, and keeps the shape of the tree. Erasing the spans is an instance. -/

namespace ErlangFragment

/-- What a rewriting does on its way. -/
structure Rewriter (m : Type → Type) where
  /-- The span of a form, clause or expression, or of the name of a form or record field. -/
  span : Span → m Span
  /-- The name of a variable. -/
  var : String → m String
  /-- Called before an expression is entered. -/
  meetExpr : Located Expr → m Unit
  /-- Called before a clause is entered. -/
  meetClause : Located Clause → m Unit

namespace Rewriter

variable {m : Type → Type} [Monad m]

/-- The rewriting that changes nothing. -/
def identity : Rewriter m where
  span := pure
  var := pure
  meetExpr _ := pure ()
  meetClause _ := pure ()

variable (r : Rewriter m)

def name (n : Located String) : m (Located String) := do return ⟨n.node, ← r.span n.span⟩

mutual

def node : Expr → m Expr
  | .integer n => pure (.integer n)
  | .float x => pure (.float x)
  | .char c => pure (.char c)
  | .string s => pure (.string s)
  | .atom a => pure (.atom a)
  | .var v => do return .var (← r.var v)
  | .tuple es => do return .tuple (← exprs es)
  | .list es tail => do return .list (← exprs es) (← optional tail)
  | .binary ss => do return .binary (← segments ss)
  | .map base fs => do return .map (← optional base) (← mapFields fs)
  | .record base n fs => do return .record (← optional base) n (← recordFields fs)
  | .recordIndex n f => pure (.recordIndex n f)
  | .recordAccess base n f => do return .recordAccess (← expr base) n f
  | .matchExpr p v => do return .matchExpr (← expr p) (← expr v)
  | .binaryOp op a b => do return .binaryOp op (← expr a) (← expr b)
  | .unaryOp op a => do return .unaryOp op (← expr a)
  | .call f args => do return .call (← expr f) (← exprs args)
  | .remote a f => do return .remote (← expr a) (← expr f)
  | .block es => do return .block (← exprs es)
  | .caseExpr e cs => do return .caseExpr (← expr e) (← clauses cs)
  | .ifExpr cs => do return .ifExpr (← clauses cs)
  | .receiveExpr cs a => do return .receiveExpr (← clauses cs) (← after a)
  | .tryExpr es os cs a => do return .tryExpr (← exprs es) (← clauses os) (← clauses cs) (← exprs a)
  | .catchExpr e => do return .catchExpr (← expr e)
  | .listComp e qs => do return .listComp (← expr e) (← qualifiers qs)
  | .binaryComp e qs => do return .binaryComp (← expr e) (← qualifiers qs)
  | .funExpr n cs => do return .funExpr n (← clauses cs)
  | .funRef a f n => do return .funRef (← optional a) (← expr f) (← expr n)
  | .macroUse n none => pure (.macroUse n none)
  | .macroUse n (some args) => do return .macroUse n (some (← exprs args))

def expr : Located Expr → m (Located Expr)
  | ⟨e, s⟩ => do
    r.meetExpr ⟨e, s⟩
    let t ← r.span s
    return ⟨← node e, t⟩

def exprs : List (Located Expr) → m (List (Located Expr))
  | [] => pure []
  | e :: es => do
    let f ← expr e
    return f :: (← exprs es)

def optional : Option (Located Expr) → m (Option (Located Expr))
  | none => pure none
  | some e => do return some (← expr e)

def guards : List (List (Located Expr)) → m (List (List (Located Expr)))
  | [] => pure []
  | g :: gs => do
    let h ← exprs g
    return h :: (← guards gs)

def clauses : List (Located Clause) → m (List (Located Clause))
  | [] => pure []
  | ⟨⟨ps, gs, body⟩, s⟩ :: cs => do
    r.meetClause ⟨⟨ps, gs, body⟩, s⟩
    let t ← r.span s
    let qs ← exprs ps
    let hs ← guards gs
    let es ← exprs body
    return ⟨⟨qs, hs, es⟩, t⟩ :: (← clauses cs)

def segments : List Segment → m (List Segment)
  | [] => pure []
  | ⟨value, size, types⟩ :: ss => do
    let v ← expr value
    let n ← optional size
    return ⟨v, n, types⟩ :: (← segments ss)

def mapFields : List MapField → m (List MapField)
  | [] => pure []
  | ⟨key, op, value⟩ :: fs => do
    let k ← expr key
    let v ← expr value
    return ⟨k, op, v⟩ :: (← mapFields fs)

def recordFields : List RecordField → m (List RecordField)
  | [] => pure []
  | ⟨n, value⟩ :: fs => do
    let l ← r.name n
    let v ← expr value
    return ⟨l, v⟩ :: (← recordFields fs)

def qualifiers : List Qualifier → m (List Qualifier)
  | [] => pure []
  | .generator p e :: qs => do
    let q ← expr p
    let f ← expr e
    return .generator q f :: (← qualifiers qs)
  | .binaryGenerator p e :: qs => do
    let q ← expr p
    let f ← expr e
    return .binaryGenerator q f :: (← qualifiers qs)
  | .filter e :: qs => do
    let f ← expr e
    return .filter f :: (← qualifiers qs)

def after : Option After → m (Option After)
  | none => pure none
  | some ⟨timeout, body⟩ => do return some ⟨← expr timeout, ← exprs body⟩

end

def attributeValue : AttributeValue → m AttributeValue
  | .exprs args => do return .exprs (← r.exprs args)
  | .tokens ts => pure (.tokens ts)

def form : Located Form → m (Located Form)
  | ⟨.function n arity cs, s⟩ => do
    let t ← r.span s
    let l ← r.name n
    return ⟨.function l arity (← r.clauses cs), t⟩
  | ⟨.attribute n value, s⟩ => do
    let t ← r.span s
    let l ← r.name n
    return ⟨.attribute l (← r.attributeValue value), t⟩

def forms : List (Located Form) → m (List (Located Form))
  | [] => pure []
  | f :: fs => do
    let g ← form r f
    return g :: (← forms fs)

end Rewriter

/-- Replaces every span by `Span.nowhere`. -/
def spanEraser : Rewriter Id := { Rewriter.identity with span := fun _ => Span.nowhere }

/-- The tree without its spans. Trees read from differently laid out text become equal. -/
def eraseExprSpans (e : Located Expr) : Located Expr := (spanEraser.expr e).run

def eraseSpans (fs : List (Located Form)) : List (Located Form) := (spanEraser.forms fs).run

end ErlangFragment
