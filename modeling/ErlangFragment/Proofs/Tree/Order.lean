import ErlangFragment.Proofs.Tree.Traversal

/-! The expressions that a traversal meets, with what each of them is in its clause. A catch clause
has a class and a stacktrace even where the text does not name them, and these are told from what
the text has. -/

namespace ErlangFragment

/-- What an expression is in the clause around it. -/
inductive Role
  | plain
  /-- The class in front of this reason. -/
  | classOf (reason : Located Expr)
  /-- The stacktrace behind this reason. -/
  | stacktraceOf (reason : Located Expr)

/-- An expression that is met. -/
structure Encounter where
  role : Role
  expr : Located Expr

namespace Encounter

/-- What stands for a class or a stacktrace that the text leaves out: `throw` or `_`, with the span
of the reason. -/
def isFilledIn : Encounter → Bool
  | ⟨.classOf r, ⟨.atom name, s⟩⟩ => name = "throw" ∧ s = r.span
  | ⟨.stacktraceOf r, ⟨.var name, s⟩⟩ => name = "_" ∧ s = r.span
  | _ => false

/-- A class starts before its reason, and a stacktrace starts behind the start of it. -/
def Apart : Encounter → Prop
  | ⟨.plain, _⟩ => True
  | ⟨.classOf r, e⟩ => e.span.start < r.span.start
  | ⟨.stacktraceOf r, e⟩ => r.span.start < e.span.start

theorem Apart.isFilledIn {m : Encounter} (h : m.Apart) : m.isFilledIn = false := by
  rw [Bool.eq_false_iff]
  intro hfilled
  rcases m with ⟨_ | r | r, e, s⟩
  · cases hfilled
  all_goals
    have hs : s = r.span := by cases e <;> simp_all [Encounter.isFilledIn]
    subst hs
    exact Nat.lt_irrefl _ h

end Encounter

/-! ### The traversal -/

namespace Encounters

mutual

def node : Expr → List Encounter
  | .integer _ | .float _ | .char _ | .string _ | .atom _ | .var _ | .recordIndex _ _ => []
  | .tuple es => exprs es
  | .list es tail => exprs es ++ optional tail
  | .binary ss => segments ss
  | .map base fs => optional base ++ mapFields fs
  | .record base _ fs => optional base ++ recordFields fs
  | .recordAccess base _ _ => expr .plain base
  | .matchExpr p v => expr .plain p ++ expr .plain v
  | .binaryOp _ a b => expr .plain a ++ expr .plain b
  | .unaryOp _ a => expr .plain a
  | .call f args => expr .plain f ++ exprs args
  | .remote m f => expr .plain m ++ expr .plain f
  | .block es => exprs es
  | .caseExpr e cs => expr .plain e ++ clauses cs
  | .ifExpr cs => clauses cs
  | .receiveExpr cs a => clauses cs ++ after a
  | .tryExpr es os cs a => exprs es ++ clauses os ++ catchClauses cs ++ exprs a
  | .catchExpr e => expr .plain e
  | .listComp e qs => expr .plain e ++ qualifiers qs
  | .binaryComp e qs => expr .plain e ++ qualifiers qs
  | .funExpr _ cs => clauses cs
  | .funRef m f a => optional m ++ expr .plain f ++ expr .plain a
  | .macroUse _ none => []
  | .macroUse _ (some args) => exprs args

def expr (role : Role) : Located Expr → List Encounter
  | ⟨e, s⟩ => ⟨role, ⟨e, s⟩⟩ :: node e

def exprs : List (Located Expr) → List Encounter
  | [] => []
  | e :: es => expr .plain e ++ exprs es

def optional : Option (Located Expr) → List Encounter
  | none => []
  | some e => expr .plain e

def guards : List (List (Located Expr)) → List Encounter
  | [] => []
  | g :: gs => exprs g ++ guards gs

def clauses : List (Located Clause) → List Encounter
  | [] => []
  | ⟨⟨ps, gs, body⟩, _⟩ :: cs => exprs ps ++ (guards gs ++ exprs body) ++ clauses cs

def catchClauses : List (Located Clause) → List Encounter
  | [] => []
  | ⟨⟨ps, gs, body⟩, _⟩ :: cs => catchPatterns ps ++ (guards gs ++ exprs body) ++ catchClauses cs

/-- The patterns of a catch clause, which are a class, a reason and a stacktrace. -/
def catchPatterns : List (Located Expr) → List Encounter
  | [] => []
  | [e] => expr .plain e
  | [e, f] => expr .plain e ++ expr .plain f
  | k :: r :: s :: es =>
      expr (.classOf r) k ++ expr .plain r ++ expr (.stacktraceOf r) s ++ exprs es

def segments : List Segment → List Encounter
  | [] => []
  | ⟨value, size, _⟩ :: ss => expr .plain value ++ optional size ++ segments ss

def mapFields : List MapField → List Encounter
  | [] => []
  | ⟨key, _, value⟩ :: fs => expr .plain key ++ expr .plain value ++ mapFields fs

def recordFields : List RecordField → List Encounter
  | [] => []
  | ⟨_, value⟩ :: fs => expr .plain value ++ recordFields fs

def qualifiers : List Qualifier → List Encounter
  | [] => []
  | .generator p e :: qs => expr .plain p ++ expr .plain e ++ qualifiers qs
  | .binaryGenerator p e :: qs => expr .plain p ++ expr .plain e ++ qualifiers qs
  | .filter e :: qs => expr .plain e ++ qualifiers qs

def after : Option After → List Encounter
  | none => []
  | some ⟨timeout, body⟩ => expr .plain timeout ++ exprs body

end

def form : Form → List Encounter
  | .function _ _ cs => clauses cs
  | .attribute _ (.exprs args) => exprs args
  | .attribute _ (.tokens _) => []

def forms (fs : List (Located Form)) : List Encounter := fs.flatMap fun f => form f.node

/-- Only atoms and variables are filled in, and nothing is inside them. -/
theorem node_eq_nil {role : Role} {e : Expr} {s : Span}
    (h : Encounter.isFilledIn ⟨role, ⟨e, s⟩⟩ = true) :
    node e = [] := by
  unfold Encounter.isFilledIn at h
  split at h
  · next heq => cases heq; rfl
  · next heq => cases heq; rfl
  · cases h

/-- Clauses are encountered one after another. -/
theorem clauses_cons (c : Located Clause) (cs : List (Located Clause)) :
    clauses (c :: cs) = clauses [c] ++ clauses cs := by
  obtain ⟨⟨_, _, _⟩, _⟩ := c
  simp [clauses]

theorem catchClauses_cons (c : Located Clause) (cs : List (Located Clause)) :
    catchClauses (c :: cs) = catchClauses [c] ++ catchClauses cs := by
  obtain ⟨⟨_, _, _⟩, _⟩ := c
  simp [catchClauses]

theorem segments_cons (s : Segment) (ss : List Segment) :
    segments (s :: ss) = segments [s] ++ segments ss := by
  obtain ⟨_, _, _⟩ := s
  simp [segments]

theorem mapFields_cons (f : MapField) (fs : List MapField) :
    mapFields (f :: fs) = mapFields [f] ++ mapFields fs := by
  obtain ⟨_, _, _⟩ := f
  simp [mapFields]

theorem recordFields_cons (f : RecordField) (fs : List RecordField) :
    recordFields (f :: fs) = recordFields [f] ++ recordFields fs := by
  obtain ⟨_, _⟩ := f
  simp [recordFields]

theorem qualifiers_cons (q : Qualifier) (qs : List Qualifier) :
    qualifiers (q :: qs) = qualifiers [q] ++ qualifiers qs := by
  cases q <;> simp [qualifiers]

end Encounters

/-! ### The same expressions as the reading traversal meets -/

def Part.expr? : Part → Option (Located Expr)
  | .expr e => some e
  | .clause _ => none

/-- The expressions among what is met. -/
def Visited.exprs (vs : List Visited) : List (Located Expr) :=
  (Visited.parts vs).filterMap Part.expr?

namespace Encounters

/-- The traversals meet the same expressions in the same order. -/
def Alongside (es : List Encounter) (vs : List Visited) : Prop :=
  es.map Encounter.expr = Visited.exprs vs

namespace Alongside

variable {es fs : List Encounter} {vs ws : List Visited}

theorem nil : Alongside [] [] := rfl

/-- Two sequences that go along stay so behind others that do. -/
theorem append (h : Alongside es vs) (h' : Alongside fs ws) : Alongside (es ++ fs) (vs ++ ws) := by
  rw [Alongside, List.map_append, h, h', Visited.exprs, Visited.exprs, Visited.exprs,
    Visited.parts_append, List.filterMap_append]

theorem cons (role : Role) (e : Located Expr) (h : Alongside es vs) :
    Alongside (⟨role, e⟩ :: es) (.expr e :: vs) :=
  congrArg (e :: ·) h

theorem clause (c : Located Clause) (h : Alongside es vs) : Alongside es (.clause c :: vs) := h

theorem qualifier (q : Qualifier) (h : Alongside es vs) : Alongside es (.qualifier q :: vs) := h

end Alongside

open Alongside

mutual

/-- The traversal meets the expressions of a node in the order of the encounters. -/
theorem node_alongside : ∀ e : Expr, Alongside (node e) (Preorder.node (fun _ => true) e)
  | .integer _ | .float _ | .char _ | .string _ | .atom _ | .var _ | .recordIndex _ _ => nil
  | .tuple es => exprs_alongside es
  | .list es tail => (exprs_alongside es).append (optional_alongside tail)
  | .binary ss => segments_alongside ss
  | .map base fs => (optional_alongside base).append (mapFields_alongside fs)
  | .record base _ fs => (optional_alongside base).append (recordFields_alongside fs)
  | .recordAccess base _ _ => expr_alongside _ base
  | .matchExpr p v => (expr_alongside _ p).append (expr_alongside _ v)
  | .binaryOp _ a b => (expr_alongside _ a).append (expr_alongside _ b)
  | .unaryOp _ a => expr_alongside _ a
  | .call f args => (expr_alongside _ f).append (exprs_alongside args)
  | .remote m f => (expr_alongside _ m).append (expr_alongside _ f)
  | .block es => exprs_alongside es
  | .caseExpr e cs => (expr_alongside _ e).append (clauses_alongside cs)
  | .ifExpr cs => clauses_alongside cs
  | .receiveExpr cs a => (clauses_alongside cs).append (after_alongside a)
  | .tryExpr es os cs a =>
    (((exprs_alongside es).append (clauses_alongside os)).append (catchClauses_alongside cs)).append
      (exprs_alongside a)
  | .catchExpr e => expr_alongside _ e
  | .listComp e qs | .binaryComp e qs => (expr_alongside _ e).append (qualifiers_alongside qs)
  | .funExpr _ cs => clauses_alongside cs
  | .funRef m f a =>
      ((optional_alongside m).append (expr_alongside _ f)).append (expr_alongside _ a)
  | .macroUse _ none => nil
  | .macroUse _ (some args) => exprs_alongside args

theorem expr_alongside (role : Role) :
    ∀ e : Located Expr, Alongside (expr role e) (Preorder.expr (fun _ => true) e)
  | ⟨e, _⟩ => (node_alongside e).cons role _

theorem exprs_alongside :
    ∀ es : List (Located Expr), Alongside (exprs es) (Preorder.exprs (fun _ => true) es)
  | [] => nil
  | e :: es => (expr_alongside _ e).append (exprs_alongside es)

theorem optional_alongside :
    ∀ e : Option (Located Expr), Alongside (optional e) (Preorder.optional (fun _ => true) e)
  | none => nil
  | some e => expr_alongside _ e

theorem guards_alongside :
    ∀ gs : List (List (Located Expr)), Alongside (guards gs) (Preorder.guards (fun _ => true) gs)
  | [] => nil
  | g :: gs => (exprs_alongside g).append (guards_alongside gs)

theorem clauses_alongside :
    ∀ cs : List (Located Clause), Alongside (clauses cs) (Preorder.clauses (fun _ => true) cs)
  | [] => nil
  | ⟨⟨ps, gs, body⟩, _⟩ :: cs => by
    rw [clauses, ← List.append_assoc]
    exact ((((exprs_alongside ps).append (guards_alongside gs)).append
      (exprs_alongside body)).clause _).append
      (clauses_alongside cs)

theorem catchClauses_alongside :
    ∀ cs : List (Located Clause), Alongside (catchClauses cs) (Preorder.clauses (fun _ => true) cs)
  | [] => nil
  | ⟨⟨ps, gs, body⟩, _⟩ :: cs => by
    rw [catchClauses, ← List.append_assoc]
    exact ((((catchPatterns_alongside ps).append (guards_alongside gs)).append
      (exprs_alongside body)).clause _).append
      (catchClauses_alongside cs)

theorem catchPatterns_alongside :
    ∀ es : List (Located Expr), Alongside (catchPatterns es) (Preorder.exprs (fun _ => true) es)
  | [] => nil
  | [e] => by
    rw [← List.append_nil (catchPatterns _)]
    exact (expr_alongside _ e).append nil
  | [e, f] => by
    rw [catchPatterns, ← List.append_nil (expr .plain f)]
    exact (expr_alongside _ e).append ((expr_alongside _ f).append nil)
  | k :: r :: s :: es => by
    rw [catchPatterns, List.append_assoc, List.append_assoc]
    exact (expr_alongside _ k).append ((expr_alongside _ r).append ((expr_alongside _ s).append
      (exprs_alongside es)))

theorem segments_alongside :
    ∀ ss : List Segment, Alongside (segments ss) (Preorder.segments (fun _ => true) ss)
  | [] => nil
  | ⟨value, size, _⟩ :: ss =>
      ((expr_alongside _ value).append (optional_alongside size)).append (segments_alongside ss)

theorem mapFields_alongside :
    ∀ fs : List MapField, Alongside (mapFields fs) (Preorder.mapFields (fun _ => true) fs)
  | [] => nil
  | ⟨key, _, value⟩ :: fs =>
      ((expr_alongside _ key).append (expr_alongside _ value)).append (mapFields_alongside fs)

theorem recordFields_alongside :
    ∀ fs : List RecordField, Alongside (recordFields fs) (Preorder.recordFields (fun _ => true) fs)
  | [] => nil
  | ⟨_, value⟩ :: fs => (expr_alongside _ value).append (recordFields_alongside fs)

theorem qualifiers_alongside :
    ∀ qs : List Qualifier, Alongside (qualifiers qs) (Preorder.qualifiers (fun _ => true) qs)
  | [] => nil
  | .generator p e :: qs | .binaryGenerator p e :: qs =>
    (((expr_alongside _ p).append (expr_alongside _ e)).qualifier _).append
      (qualifiers_alongside qs)
  | .filter e :: qs => ((expr_alongside _ e).qualifier _).append (qualifiers_alongside qs)

theorem after_alongside : ∀ a : Option After, Alongside (after a) (Preorder.after (fun _ => true) a)
  | none => nil
  | some ⟨timeout, body⟩ => (expr_alongside _ timeout).append (exprs_alongside body)

end

theorem form_alongside : ∀ f : Located Form,
    Alongside (form f.node) (Preorder.form (fun _ => true) f)
  | ⟨.function _ _ cs, _⟩ => clauses_alongside cs
  | ⟨.attribute _ (.exprs args), _⟩ => exprs_alongside args
  | ⟨.attribute _ (.tokens _), _⟩ => nil

theorem forms_alongside (fs : List (Located Form)) :
    Alongside (forms fs) (Preorder.forms (fun _ => true) fs) := by
  induction fs with
  | nil => exact nil
  | cons f fs ih => exact (form_alongside f).append ih

end Encounters

end ErlangFragment
