import ErlangFragment.Proofs.Tree.Requirement

/-! The shape of trees that are read from tokens, and the words that their leaves are made of. -/

namespace ErlangFragment

/-- Whether the node is an atom. -/
def Expr.isAtom : Expr → Bool
  | .atom _ => true
  | _ => false

/-- Whether the node is a variable. -/
def Expr.isVar : Expr → Bool
  | .var _ => true
  | _ => false

/-- What the grammar gives to every node. -/
def Expr.Shaped : Expr → Prop
  | .list es tail => es ≠ [] ∨ tail = none
  | .block es => es ≠ []
  | .caseExpr _ cs => cs ≠ [] ∧ ∀ c ∈ cs, c.node.patterns.length = 1
  | .ifExpr cs => cs ≠ [] ∧ ∀ c ∈ cs, c.node.patterns = [] ∧ c.node.guards ≠ []
  | .receiveExpr cs a =>
    (cs ≠ [] ∨ a.isSome) ∧ (∀ c ∈ cs, c.node.patterns.length = 1) ∧ ∀ x ∈ a, x.body ≠ []
  | .tryExpr es os cs a =>
    es ≠ [] ∧ (∀ c ∈ os, c.node.patterns.length = 1) ∧ (∀ c ∈ cs, c.node.patterns.length = 3) ∧
      (cs ≠ [] ∨ a ≠ [])
  | .listComp _ qs => qs ≠ []
  | .binaryComp _ qs => qs ≠ []
  | .funExpr _ cs => cs ≠ []
  | .funRef none f _ => f.node.isAtom
  | .funRef (some m) _ _ => m.node.isAtom ∨ m.node.isVar
  | _ => True

def Clause.Shaped (c : Clause) : Prop := (∀ g ∈ c.guards, g ≠ []) ∧ c.body ≠ []

/-- The shape of every tree that is read from tokens. -/
def shaped : Requirement := ⟨Expr.Shaped, Clause.Shaped⟩

/-- The literals and names in a node stand for tokens that fulfil `P`. Nothing is asked of the text
of strings, atoms and characters, which can all be quoted. -/
def Expr.Worded (P : Token → Prop) : Expr → Prop
  | .integer n => P (.integer n)
  | .float x => P (.float x)
  | .var v => P (.var v)
  | .binary ss => ∀ s ∈ ss, ∀ t ∈ s.types, ∀ n ∈ t.arg, P (.integer (.small n))
  | .funExpr (some v) _ => P (.var v)
  | .macroUse name _ => P (.atom name) ∨ P (.var name)
  | _ => True

/-- The shape of trees that are read from tokens which fulfil `P`. -/
def shapedOf (P : Token → Prop) : Requirement := ⟨fun e => e.Shaped ∧ e.Worded P, Clause.Shaped⟩

/-- The shape of a form: a function has clauses, all of them with its arity. -/
def Form.Shaped : Form → Prop
  | .function _ arity cs => (cs ≠ [] ∧ ∀ c ∈ cs, c.node.patterns.length = arity) ∧ shaped.clauses cs
  | .attribute _ (.exprs es) => shaped.exprs es
  | .attribute _ (.tokens _) => True

/-- The shape of a form that is read from tokens which fulfil `P`. -/
def Form.ShapedOf (P : Token → Prop) : Form → Prop
  | .function _ arity cs =>
    (cs ≠ [] ∧ ∀ c ∈ cs, c.node.patterns.length = arity) ∧ (shapedOf P).clauses cs
  | .attribute _ (.exprs es) => (shapedOf P).exprs es
  | .attribute _ (.tokens ts) => ∀ t ∈ ts, P t ∧ t ≠ .terminator

section

variable {P : Token → Prop}

private theorem shapedOf_combine : Requirement.Combine (shapedOf P) (shapedOf P) shaped where
  node _ h _ _ := h.1
  clause _ h _ := h

theorem shaped_of_shapedOf (e : Located Expr) (h : (shapedOf P).expr e) : shaped.expr e :=
  Requirement.expr_combine shapedOf_combine e h h

/-- What is known of the tokens of a form besides its shape can be forgotten. -/
theorem Form.ShapedOf.shaped {f : Form} (h : f.ShapedOf P) : f.Shaped := by
  match f with
  | .function _ _ cs => exact ⟨h.1, Requirement.clauses_combine shapedOf_combine cs h.2 h.2⟩
  | .attribute _ (.exprs es) => exact Requirement.exprs_combine shapedOf_combine es h h
  | .attribute _ (.tokens _) => exact trivial

end

end ErlangFragment
