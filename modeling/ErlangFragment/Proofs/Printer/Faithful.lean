import ErlangFragment.Printer
import ErlangFragment.Proofs.Tree.Shape

/-! Trees whose layout means the tree again. -/

namespace ErlangFragment

namespace Printer

/-! ### What holds together -/

/-- Expressions that are laid out as a primary. -/
def printsPrimary : Expr → Bool
  | .map (some _) _ | .record (some _) _ _ | .recordAccess _ _ _ | .matchExpr _ _ | .binaryOp _ _ _
  | .unaryOp _ _ | .call _ _ | .remote _ _ | .catchExpr _ => false
  | _ => true

/-- Whether the layout ends with a macro that would take arguments behind it as its own. -/
def endsInMacro : Expr → Bool
  | .macroUse _ none => true
  | .funRef _ _ ⟨a, _⟩ => endsInMacro a
  | _ => false

mutual

/-- Whether a colon of a remote call stands in the layout outside of all parentheses. -/
def exposesRemote : Expr → Bool
  | .tuple es => exprsExpose es
  | .list es tail => exprsExpose es || optionalExposes tail
  | .map base fs => optionalBaseExposes base || mapFieldsExpose fs
  | .record base _ fs => optionalBaseExposes base || recordFieldsExpose fs
  | .recordAccess base _ _ => baseExposes base
  | .matchExpr ⟨p, _⟩ ⟨v, _⟩ =>
    (!leftNeedsParens matchPower false p && exposesRemote p) ||
      (!rightNeedsParens matchPower v && exposesRemote v)
  | .binaryOp op ⟨l, _⟩ ⟨r, _⟩ =>
    (!leftNeedsParens op.power op.isComparison l && exposesRemote l) ||
      (!rightNeedsParens op.power r && exposesRemote r)
  | .unaryOp _ ⟨e, _⟩ => !operandNeedsParens e && exposesRemote e
  | .call f _ => baseExposes f
  | .remote _ _ => true
  | .block es => exprsExpose es
  | .caseExpr e cs => exprExposes e || clausesExpose cs
  | .ifExpr cs => clausesExpose cs
  | .receiveExpr cs a => clausesExpose cs || afterExposes a
  | .tryExpr es os cs a => exprsExpose es || clausesExpose os || clausesExpose cs || exprsExpose a
  | .catchExpr e => exprExposes e
  | .listComp e qs => exprExposes e || qualifiersExpose qs
  | .binaryComp _ qs => qualifiersExpose qs
  | .funExpr _ cs => clausesExpose cs
  | .funRef _ f a => exprExposes f || exprExposes a
  | _ => false

/-- Of an expression: that of its node. -/
def exprExposes : Located Expr → Bool
  | ⟨e, _⟩ => exposesRemote e

def exprsExpose : List (Located Expr) → Bool
  | [] => false
  | e :: es => exprExposes e || exprsExpose es

def optionalExposes : Option (Located Expr) → Bool
  | none => false
  | some e => exprExposes e

def baseExposes : Located Expr → Bool
  | ⟨e, _⟩ => !baseNeedsParens e && exposesRemote e

def optionalBaseExposes : Option (Located Expr) → Bool
  | none => false
  | some e => baseExposes e

def guardsExpose : List (List (Located Expr)) → Bool
  | [] => false
  | g :: gs => exprsExpose g || guardsExpose gs

def clausesExpose : List (Located Clause) → Bool
  | [] => false
  | ⟨⟨ps, gs, body⟩, _⟩ :: cs =>
      exprsExpose ps || guardsExpose gs || exprsExpose body || clausesExpose cs

def mapFieldsExpose : List MapField → Bool
  | [] => false
  | ⟨key, _, value⟩ :: fs => exprExposes key || exprExposes value || mapFieldsExpose fs

def recordFieldsExpose : List RecordField → Bool
  | [] => false
  | ⟨_, value⟩ :: fs => exprExposes value || recordFieldsExpose fs

def qualifiersExpose : List Qualifier → Bool
  | [] => false
  | .generator p e :: qs => exprExposes p || exprExposes e || qualifiersExpose qs
  | .binaryGenerator p e :: qs => exprExposes p || exprExposes e || qualifiersExpose qs
  | .filter e :: qs => exprExposes e || qualifiersExpose qs

def afterExposes : Option After → Bool
  | none => false
  | some ⟨timeout, body⟩ => exprExposes timeout || exprsExpose body

end

/-- What is laid out without parentheses is read as one operand where it stands: references are to
primaries, a callee is no macro name, and no pattern of a catch clause has a colon of its own. -/
def HoldsTogether : Expr → Prop
  | .call f _ => endsInMacro f.node = false
  | .funRef _ f a => printsPrimary f.node = true ∧ printsPrimary a.node = true
  | .tryExpr _ _ cs _ => ∀ c ∈ cs, ∀ p ∈ c.node.patterns, exprExposes p = false
  | _ => True

end Printer

end ErlangFragment
