import ErlangFragment.Diagnostic
import ErlangFragment.Scope
import ErlangFragment.Tree

/-! Free variables. A tree is read as a sequence of scope events, in the order in which its parts
are evaluated, and the events are run on a stack of frames. Nothing bound in a frame outlives it,
and the first unbound occurrence of a name binds it for the rest of its frame. -/

namespace ErlangFragment

/-- A finite set of names, in increasing order. -/
abbrev Names := List String

def Names.insert (name : String) : Names → Names
  | [] => [name]
  | n :: ns =>
      if name < n then name :: n :: ns
      else if name = n then n :: ns
      else n :: Names.insert name ns

/-- What has variables that cannot be told. -/
inductive Unclassified
  | macroUse | attribute
deriving DecidableEq

def Unclassified.kindName : Unclassified → String
  | macroUse => "macro"
  | .attribute => "attribute"

/-- An error of the analysis: a node that may bind or refer to anything, and where it is. -/
structure AnalysisError where
  what : Unclassified
  span : Span
deriving DecidableEq

def AnalysisError.diagnostic (e : AnalysisError) : Diagnostic := .analysis e.what.kindName e.span

/-- What happens to the frames while a tree is read. -/
inductive ScopeEvent
  | enter
  | leave
  | bind (name : String) (span : Span)
  | refer (name : String) (span : Span)
  | unclassified (what : Unclassified) (span : Span)
deriving DecidableEq

/-- How a part of a tree is read: variables refer to values, or they are bound. -/
inductive Reading
  | value | pattern
deriving DecidableEq

namespace ScopeEvent

/-- The events inside a frame of their own. -/
def framed (events : List ScopeEvent) : List ScopeEvent := enter :: events ++ [leave]

/-- Reads inside a frame of its own as a value, and in place as a pattern. -/
def framedIn (reading : Reading) (events : List ScopeEvent) : List ScopeEvent :=
  match reading with
  | .value => framed events
  | .pattern => events

/-- A pattern and what it is matched with. What it is matched with comes first as a value, and the
pattern does where both are part of a pattern. -/
def matching (reading : Reading) (pattern source : List ScopeEvent) : List ScopeEvent :=
  match reading with
  | .value => source ++ pattern
  | .pattern => pattern ++ source

/-- A comprehension. Its qualifiers come first as a value. -/
def comprehension (reading : Reading) (template qualifiers : List ScopeEvent) : List ScopeEvent :=
  match reading with
  | .value => framed (qualifiers ++ template)
  | .pattern => template ++ qualifiers

/-- The occurrence of a variable. -/
def occurrence (reading : Reading) (name : String) (span : Span) : List ScopeEvent :=
  match reading with
  | .value => [refer name span]
  | .pattern => [bind name span]

/-- The name of a fun, which is bound inside it. -/
def funName (reading : Reading) (name : Option String) (span : Span) : List ScopeEvent :=
  match reading, name with
  | .value, some n => [bind n span]
  | _, _ => []

end ScopeEvent

namespace FreeVariables

open ScopeEvent

mutual

/-- The events of a node with the given span. Segment sizes, map keys and map bases are values even
inside patterns. -/
def node (reading : Reading) (span : Span) : Expr → List ScopeEvent
  | .integer _ | .float _ | .char _ | .string _ | .atom _ | .recordIndex _ _ => []
  | .var v => occurrence reading v span
  | .tuple es => exprs reading es
  | .list es tail => exprs reading es ++ optional reading tail
  | .binary ss => segments reading ss
  | .map base fs => optional .value base ++ mapFields reading fs
  | .record base _ fs => optional reading base ++ recordFields reading fs
  | .recordAccess base _ _ => expr reading base
  | .matchExpr p v => matching reading (expr .pattern p) (expr reading v)
  | .binaryOp _ a b => expr reading a ++ expr reading b
  | .unaryOp _ a => expr reading a
  | .call f args => expr reading f ++ exprs reading args
  | .remote m f => expr reading m ++ expr reading f
  | .block es => framedIn reading (exprs reading es)
  | .caseExpr e cs => expr reading e ++ clauses reading cs
  | .ifExpr cs => clauses reading cs
  | .receiveExpr cs a => clauses reading cs ++ after reading a
  | .tryExpr es os cs a =>
    framedIn reading (exprs reading es ++ clauses reading os) ++ clauses reading cs
      ++ framedIn reading (exprs reading a)
  | .catchExpr e => expr reading e
  | .listComp e qs => comprehension reading (expr reading e) (qualifiers reading qs)
  | .binaryComp e qs => comprehension reading (expr reading e) (qualifiers reading qs)
  | .funExpr n cs => framedIn reading (funName reading n span ++ clauses reading cs)
  | .funRef m f a => optional reading m ++ expr reading f ++ expr reading a
  | .macroUse _ _ => [unclassified .macroUse span]

def expr (reading : Reading) : Located Expr → List ScopeEvent
  | ⟨e, s⟩ => node reading s e

def exprs (reading : Reading) : List (Located Expr) → List ScopeEvent
  | [] => []
  | e :: es => expr reading e ++ exprs reading es

def optional (reading : Reading) : Option (Located Expr) → List ScopeEvent
  | none => []
  | some e => expr reading e

def guards (reading : Reading) : List (List (Located Expr)) → List ScopeEvent
  | [] => []
  | g :: gs => exprs reading g ++ guards reading gs

def clauses (reading : Reading) : List (Located Clause) → List ScopeEvent
  | [] => []
  | ⟨⟨ps, gs, body⟩, _⟩ :: cs =>
    framedIn reading (exprs .pattern ps ++ guards reading gs ++ exprs reading body)
      ++ clauses reading cs

def segments (reading : Reading) : List Segment → List ScopeEvent
  | [] => []
  | ⟨value, size, _⟩ :: ss => expr reading value ++ optional .value size ++ segments reading ss

def mapFields (reading : Reading) : List MapField → List ScopeEvent
  | [] => []
  | ⟨key, _, value⟩ :: fs => expr .value key ++ expr reading value ++ mapFields reading fs

def recordFields (reading : Reading) : List RecordField → List ScopeEvent
  | [] => []
  | ⟨_, value⟩ :: fs => expr reading value ++ recordFields reading fs

def qualifiers (reading : Reading) : List Qualifier → List ScopeEvent
  | [] => []
  | .generator p e :: qs =>
      matching reading (expr .pattern p) (expr reading e) ++ qualifiers reading qs
  | .binaryGenerator p e :: qs =>
    matching reading (expr .pattern p) (expr reading e) ++ qualifiers reading qs
  | .filter e :: qs => expr reading e ++ qualifiers reading qs

def after (reading : Reading) : Option After → List ScopeEvent
  | none => []
  | some ⟨timeout, body⟩ => expr reading timeout ++ framedIn reading (exprs reading body)

end

/-- The frames and the free names found so far. -/
structure Progress where
  scope : Scope Span
  free : Names

/-- One empty frame, and no free name yet. -/
def Progress.initial : Progress := ⟨Scope.initial, []⟩

/-- Runs one event. The variable `_` is never free and never bound. -/
def Progress.run (p : Progress) : ScopeEvent → Except AnalysisError Progress
  | .enter => .ok { p with scope := p.scope.push }
  | .leave => .ok { p with scope := p.scope.pop }
  | .bind name span =>
    if name = "_" || p.scope.contains name then .ok p
    else .ok { p with scope := p.scope.insert name span }
  | .refer name span =>
    if name = "_" || p.scope.contains name then .ok p
    else .ok ⟨p.scope.insert name span, Names.insert name p.free⟩
  | .unclassified what span => .error ⟨what, span⟩

/-- The free names of a sequence of events. -/
def ofEvents (events : List ScopeEvent) : Except AnalysisError Names :=
  (events.foldlM Progress.run Progress.initial).map Progress.free

end FreeVariables

/-- The names that an expression refers to and does not bind before. -/
def freeVariables (e : Located Expr) : Except AnalysisError Names :=
  FreeVariables.ofEvents (FreeVariables.expr .value e)

/-- The free variables of a function, whose clauses have a frame each. -/
def freeVariablesInForm : Located Form → Except AnalysisError Names
  | ⟨.function _ _ cs, _⟩ => FreeVariables.ofEvents (FreeVariables.clauses .value cs)
  | ⟨.attribute _ _, span⟩ => .error ⟨.attribute, span⟩

end ErlangFragment
