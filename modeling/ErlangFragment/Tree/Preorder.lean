import ErlangFragment.Tree

/-! Read-only traversal of trees: everything that is met before its children, in the order of the
source. A traversal can stay out of what it has met. -/

namespace ErlangFragment

/-- What a traversal meets. Fields of maps, records and binaries are not met themselves, only the
expressions in them. -/
inductive Visited
  | form (f : Located Form)
  | clause (c : Located Clause)
  | expr (e : Located Expr)
  | qualifier (q : Qualifier)

namespace Preorder

variable (enters : Visited → Bool)

/-- What is met, and what is met inside it if the traversal enters it. -/
def meet (v : Visited) (inside : List Visited) : List Visited :=
  v :: if enters v then inside else []

mutual

def node : Expr → List Visited
  | .integer _ | .float _ | .char _ | .string _ | .atom _ | .var _ | .recordIndex _ _ => []
  | .tuple es => exprs es
  | .list es tail => exprs es ++ optional tail
  | .binary ss => segments ss
  | .map base fs => optional base ++ mapFields fs
  | .record base _ fs => optional base ++ recordFields fs
  | .recordAccess base _ _ => expr base
  | .matchExpr p v => expr p ++ expr v
  | .binaryOp _ a b => expr a ++ expr b
  | .unaryOp _ a => expr a
  | .call f args => expr f ++ exprs args
  | .remote m f => expr m ++ expr f
  | .block es => exprs es
  | .caseExpr e cs => expr e ++ clauses cs
  | .ifExpr cs => clauses cs
  | .receiveExpr cs a => clauses cs ++ after a
  | .tryExpr es os cs a => exprs es ++ clauses os ++ clauses cs ++ exprs a
  | .catchExpr e => expr e
  | .listComp e qs => expr e ++ qualifiers qs
  | .binaryComp e qs => expr e ++ qualifiers qs
  | .funExpr _ cs => clauses cs
  | .funRef m f a => optional m ++ expr f ++ expr a
  | .macroUse _ none => []
  | .macroUse _ (some args) => exprs args

def expr : Located Expr → List Visited
  | ⟨e, s⟩ => meet enters (.expr ⟨e, s⟩) (node e)

def exprs : List (Located Expr) → List Visited
  | [] => []
  | e :: es => expr e ++ exprs es

def optional : Option (Located Expr) → List Visited
  | none => []
  | some e => expr e

def guards : List (List (Located Expr)) → List Visited
  | [] => []
  | g :: gs => exprs g ++ guards gs

def clauses : List (Located Clause) → List Visited
  | [] => []
  | ⟨⟨ps, gs, body⟩, s⟩ :: cs =>
    meet enters (.clause ⟨⟨ps, gs, body⟩, s⟩) (exprs ps ++ guards gs ++ exprs body) ++ clauses cs

def segments : List Segment → List Visited
  | [] => []
  | ⟨value, size, _⟩ :: ss => expr value ++ optional size ++ segments ss

def mapFields : List MapField → List Visited
  | [] => []
  | ⟨key, _, value⟩ :: fs => expr key ++ expr value ++ mapFields fs

def recordFields : List RecordField → List Visited
  | [] => []
  | ⟨_, value⟩ :: fs => expr value ++ recordFields fs

def qualifiers : List Qualifier → List Visited
  | [] => []
  | .generator p e :: qs =>
      meet enters (.qualifier (.generator p e)) (expr p ++ expr e) ++ qualifiers qs
  | .binaryGenerator p e :: qs =>
    meet enters (.qualifier (.binaryGenerator p e)) (expr p ++ expr e) ++ qualifiers qs
  | .filter e :: qs => meet enters (.qualifier (.filter e)) (expr e) ++ qualifiers qs

def after : Option After → List Visited
  | none => []
  | some ⟨timeout, body⟩ => expr timeout ++ exprs body

end

def attributeValue : AttributeValue → List Visited
  | .exprs args => exprs enters args
  | .tokens _ => []

def form : Located Form → List Visited
  | ⟨.function n arity cs, s⟩ => meet enters (.form ⟨.function n arity cs, s⟩) (clauses enters cs)
  | ⟨.attribute n value, s⟩ =>
    meet enters (.form ⟨.attribute n value, s⟩) (attributeValue enters value)

def forms : List (Located Form) → List Visited
  | [] => []
  | f :: fs => form enters f ++ forms fs

end Preorder

end ErlangFragment
