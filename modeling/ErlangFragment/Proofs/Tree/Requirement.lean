import ErlangFragment.Tree

/-! Requirements on every node and every clause of a tree. A remote function has no place in a tree
but as a callee. -/

namespace ErlangFragment

/-- What a node has to fulfil on its own, and what a clause has to. -/
structure Requirement where
  ofNode : Expr → Prop
  ofClause : Clause → Prop

def Expr.isRemote : Expr → Bool
  | .remote _ _ => true
  | _ => false

namespace Requirement

variable (R : Requirement)

mutual

/-- All nodes and clauses below the node fulfil the requirement. -/
def parts : Expr → Prop
  | .integer _ | .float _ | .char _ | .string _ | .atom _ | .var _ | .recordIndex _ _ => True
  | .tuple es => exprs es
  | .list es tail => exprs es ∧ optional tail
  | .binary ss => segments ss
  | .map base fs => optional base ∧ mapFields fs
  | .record base _ fs => optional base ∧ recordFields fs
  | .recordAccess base _ _ => expr base
  | .matchExpr p v => expr p ∧ expr v
  | .binaryOp _ a b => expr a ∧ expr b
  | .unaryOp _ a => expr a
  | .call f args => callee f ∧ exprs args
  | .remote m f => expr m ∧ expr f
  | .block es => exprs es
  | .caseExpr e cs => expr e ∧ clauses cs
  | .ifExpr cs => clauses cs
  | .receiveExpr cs a => clauses cs ∧ after a
  | .tryExpr es os cs a => exprs es ∧ clauses os ∧ clauses cs ∧ exprs a
  | .catchExpr e => expr e
  | .listComp e qs => expr e ∧ qualifiers qs
  | .binaryComp e qs => expr e ∧ qualifiers qs
  | .funExpr _ cs => clauses cs
  | .funRef m f a => optional m ∧ expr f ∧ expr a
  | .macroUse _ none => True
  | .macroUse _ (some args) => exprs args

/-- The whole expression fulfils the requirement. -/
def expr : Located Expr → Prop
  | ⟨e, _⟩ => e.isRemote = false ∧ R.ofNode e ∧ parts e

def callee : Located Expr → Prop
  | ⟨e, _⟩ => R.ofNode e ∧ parts e

def exprs : List (Located Expr) → Prop
  | [] => True
  | e :: es => expr e ∧ exprs es

def optional : Option (Located Expr) → Prop
  | none => True
  | some e => expr e

def guards : List (List (Located Expr)) → Prop
  | [] => True
  | g :: gs => exprs g ∧ guards gs

def clauses : List (Located Clause) → Prop
  | [] => True
  | ⟨⟨ps, gs, body⟩, _⟩ :: cs =>
    (R.ofClause ⟨ps, gs, body⟩ ∧ exprs ps ∧ guards gs ∧ exprs body) ∧ clauses cs

def segments : List Segment → Prop
  | [] => True
  | ⟨value, size, _⟩ :: ss => (expr value ∧ optional size) ∧ segments ss

def mapFields : List MapField → Prop
  | [] => True
  | ⟨key, _, value⟩ :: fs => (expr key ∧ expr value) ∧ mapFields fs

def recordFields : List RecordField → Prop
  | [] => True
  | ⟨_, value⟩ :: fs => expr value ∧ recordFields fs

def qualifiers : List Qualifier → Prop
  | [] => True
  | .generator p e :: qs => (expr p ∧ expr e) ∧ qualifiers qs
  | .binaryGenerator p e :: qs => (expr p ∧ expr e) ∧ qualifiers qs
  | .filter e :: qs => expr e ∧ qualifiers qs

def after : Option After → Prop
  | none => True
  | some ⟨timeout, body⟩ => expr timeout ∧ exprs body

end

/-! ### Consequences of two requirements -/

/-- What fulfils the first two requirements fulfils the third. A node may rely on the first one
below it. -/
structure Combine (R S T : Requirement) : Prop where
  node : ∀ e, R.ofNode e → S.ofNode e → R.parts e → T.ofNode e
  clause : ∀ c, R.ofClause c → S.ofClause c → T.ofClause c

variable {R} {S T : Requirement}

mutual

/-- Two requirements on the parts of a tree give the third one on them. -/
theorem parts_combine (c : Combine R S T) : ∀ e : Expr, R.parts e → S.parts e → T.parts e
  | .integer _, _, _ | .float _, _, _ | .char _, _, _ | .string _, _, _ | .atom _, _, _
  | .var _, _, _
  | .recordIndex _ _, _, _ => True.intro
  | .tuple es, h, h' => exprs_combine c es h h'
  | .list es tail, h, h' => ⟨exprs_combine c es h.1 h'.1, optional_combine c tail h.2 h'.2⟩
  | .binary ss, h, h' => segments_combine c ss h h'
  | .map base fs, h, h' => ⟨optional_combine c base h.1 h'.1, mapFields_combine c fs h.2 h'.2⟩
  | .record base _ fs, h, h' =>
      ⟨optional_combine c base h.1 h'.1, recordFields_combine c fs h.2 h'.2⟩
  | .recordAccess base _ _, h, h' => expr_combine c base h h'
  | .matchExpr p v, h, h' => ⟨expr_combine c p h.1 h'.1, expr_combine c v h.2 h'.2⟩
  | .binaryOp _ a b, h, h' => ⟨expr_combine c a h.1 h'.1, expr_combine c b h.2 h'.2⟩
  | .unaryOp _ a, h, h' => expr_combine c a h h'
  | .call f args, h, h' => ⟨callee_combine c f h.1 h'.1, exprs_combine c args h.2 h'.2⟩
  | .remote m f, h, h' => ⟨expr_combine c m h.1 h'.1, expr_combine c f h.2 h'.2⟩
  | .block es, h, h' => exprs_combine c es h h'
  | .caseExpr e cs, h, h' => ⟨expr_combine c e h.1 h'.1, clauses_combine c cs h.2 h'.2⟩
  | .ifExpr cs, h, h' => clauses_combine c cs h h'
  | .receiveExpr cs a, h, h' => ⟨clauses_combine c cs h.1 h'.1, after_combine c a h.2 h'.2⟩
  | .tryExpr es os cs a, ⟨h₁, h₂, h₃, h₄⟩, ⟨h₁', h₂', h₃', h₄'⟩ =>
    ⟨exprs_combine c es h₁ h₁', clauses_combine c os h₂ h₂', clauses_combine c cs h₃ h₃',
      exprs_combine c a h₄ h₄'⟩
  | .catchExpr e, h, h' => expr_combine c e h h'
  | .listComp e qs, h, h' | .binaryComp e qs, h, h' =>
    ⟨expr_combine c e h.1 h'.1, qualifiers_combine c qs h.2 h'.2⟩
  | .funExpr _ cs, h, h' => clauses_combine c cs h h'
  | .funRef m f a, ⟨h₁, h₂, h₃⟩, ⟨h₁', h₂', h₃'⟩ =>
    ⟨optional_combine c m h₁ h₁', expr_combine c f h₂ h₂', expr_combine c a h₃ h₃'⟩
  | .macroUse _ none, _, _ => True.intro
  | .macroUse _ (some args), h, h' => exprs_combine c args h h'

theorem expr_combine (c : Combine R S T) : ∀ e : Located Expr, R.expr e → S.expr e → T.expr e
  | ⟨e, _⟩, ⟨hremote, h, hparts⟩, ⟨_, h', hparts'⟩ =>
    ⟨hremote, c.node e h h' hparts, parts_combine c e hparts hparts'⟩

theorem callee_combine (c : Combine R S T) :
    ∀ e : Located Expr, R.callee e → S.callee e → T.callee e
  | ⟨e, _⟩, ⟨h, hparts⟩, ⟨h', hparts'⟩ => ⟨c.node e h h' hparts, parts_combine c e hparts hparts'⟩

theorem exprs_combine (c : Combine R S T) :
    ∀ es : List (Located Expr), R.exprs es → S.exprs es → T.exprs es
  | [], _, _ => True.intro
  | e :: es, h, h' => ⟨expr_combine c e h.1 h'.1, exprs_combine c es h.2 h'.2⟩

theorem optional_combine (c : Combine R S T) :
    ∀ e : Option (Located Expr), R.optional e → S.optional e → T.optional e
  | none, _, _ => True.intro
  | some e, h, h' => expr_combine c e h h'

theorem guards_combine (c : Combine R S T) :
    ∀ gs : List (List (Located Expr)), R.guards gs → S.guards gs → T.guards gs
  | [], _, _ => True.intro
  | g :: gs, h, h' => ⟨exprs_combine c g h.1 h'.1, guards_combine c gs h.2 h'.2⟩

theorem clauses_combine (c : Combine R S T) :
    ∀ cs : List (Located Clause), R.clauses cs → S.clauses cs → T.clauses cs
  | [], _, _ => True.intro
  | ⟨⟨ps, gs, body⟩, _⟩ :: cs, ⟨⟨h, hps, hgs, hbody⟩, hcs⟩, ⟨⟨h', hps', hgs', hbody'⟩, hcs'⟩ =>
    ⟨⟨c.clause _ h h', exprs_combine c ps hps hps', guards_combine c gs hgs hgs',
      exprs_combine c body hbody hbody'⟩, clauses_combine c cs hcs hcs'⟩

theorem segments_combine (c : Combine R S T) :
    ∀ ss : List Segment, R.segments ss → S.segments ss → T.segments ss
  | [], _, _ => True.intro
  | ⟨value, size, _⟩ :: ss, h, h' =>
    ⟨⟨expr_combine c value h.1.1 h'.1.1, optional_combine c size h.1.2 h'.1.2⟩,
      segments_combine c ss h.2 h'.2⟩

theorem mapFields_combine (c : Combine R S T) :
    ∀ fs : List MapField, R.mapFields fs → S.mapFields fs → T.mapFields fs
  | [], _, _ => True.intro
  | ⟨key, _, value⟩ :: fs, h, h' =>
    ⟨⟨expr_combine c key h.1.1 h'.1.1, expr_combine c value h.1.2 h'.1.2⟩,
      mapFields_combine c fs h.2 h'.2⟩

theorem recordFields_combine (c : Combine R S T) : ∀ fs : List RecordField,
    R.recordFields fs → S.recordFields fs → T.recordFields fs
  | [], _, _ => True.intro
  | ⟨_, value⟩ :: fs, h, h' => ⟨expr_combine c value h.1 h'.1, recordFields_combine c fs h.2 h'.2⟩

theorem qualifiers_combine (c : Combine R S T) : ∀ qs : List Qualifier,
    R.qualifiers qs → S.qualifiers qs → T.qualifiers qs
  | [], _, _ => True.intro
  | .generator p e :: qs, h, h' | .binaryGenerator p e :: qs, h, h' =>
    ⟨⟨expr_combine c p h.1.1 h'.1.1, expr_combine c e h.1.2 h'.1.2⟩,
      qualifiers_combine c qs h.2 h'.2⟩
  | .filter e :: qs, h, h' => ⟨expr_combine c e h.1 h'.1, qualifiers_combine c qs h.2 h'.2⟩

theorem after_combine (c : Combine R S T) : ∀ a : Option After, R.after a → S.after a → T.after a
  | none, _, _ => True.intro
  | some ⟨timeout, body⟩, h, h' => ⟨expr_combine c timeout h.1 h'.1, exprs_combine c body h.2 h'.2⟩

end

end Requirement

end ErlangFragment
