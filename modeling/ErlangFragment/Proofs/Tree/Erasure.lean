import ErlangFragment.Tree.Rewriting

/-! Erasure of spans, one part of a tree at a time. -/

namespace ErlangFragment

/-- Values that hold spans. -/
class Erasable (α : Type) where
  /-- The value with `Span.nowhere` in place of every span. -/
  erase : α → α

export Erasable (erase)

section

variable {α : Type} [Erasable α]

instance : Erasable Span := ⟨fun _ => .nowhere⟩

instance : Erasable (List α) := ⟨List.map erase⟩

instance : Erasable (Option α) := ⟨Option.map erase⟩

instance {β : Type} [Erasable β] : Erasable (α × β) := ⟨fun p => (erase p.1, erase p.2)⟩

@[simp] theorem erase_span (s : Span) : erase s = Span.nowhere := rfl

@[simp] theorem erase_nil : erase ([] : List α) = [] := rfl

@[simp] theorem erase_cons (a : α) (as : List α) : erase (a :: as) = erase a :: erase as := rfl

@[simp] theorem erase_none : erase (none : Option α) = none := rfl

@[simp] theorem erase_some (a : α) : erase (some a) = some (erase a) := rfl

end

instance : Erasable Unit := ⟨id⟩

instance : Erasable String := ⟨id⟩

instance : Erasable MapOp := ⟨id⟩

instance : Erasable SegmentType := ⟨id⟩

/-! ### Expressions and their parts -/

instance {α : Type} [Erasable α] : Erasable (Located α) := ⟨fun a => ⟨erase a.node, .nowhere⟩⟩

/-- Stands before the instance for located values in general. -/
instance : Erasable (Located Expr) := ⟨eraseExprSpans⟩

instance : Erasable Clause := ⟨fun c => ⟨erase c.patterns, erase c.guards, erase c.body⟩⟩

instance : Erasable Segment := ⟨fun s => ⟨erase s.value, erase s.size, s.types⟩⟩

instance : Erasable MapField := ⟨fun f => ⟨erase f.key, f.op, erase f.value⟩⟩

instance : Erasable RecordField := ⟨fun f => ⟨erase f.name, erase f.value⟩⟩

instance : Erasable After := ⟨fun a => ⟨erase a.timeout, erase a.body⟩⟩

def Qualifier.eraseSpans : Qualifier → Qualifier
  | generator p e => generator (erase p) (erase e)
  | binaryGenerator p e => binaryGenerator (erase p) (erase e)
  | filter e => filter (erase e)

instance : Erasable Qualifier := ⟨Qualifier.eraseSpans⟩

/-- What the traversal does to a tree without spans is what `erase` does to each of its parts. The
rest of a tree follows, part by part. -/
theorem spanEraser_exprs : ∀ es : List (Located Expr), spanEraser.exprs es = erase es
  | [] => rfl
  | e :: es => congrArg (erase e :: ·) (spanEraser_exprs es)

theorem spanEraser_optional : ∀ e : Option (Located Expr), spanEraser.optional e = erase e
  | none => rfl
  | some _ => rfl

theorem spanEraser_guards : ∀ gs : List (List (Located Expr)), spanEraser.guards gs = erase gs
  | [] => rfl
  | g :: gs => by
    have hrec : spanEraser.guards (g :: gs) = spanEraser.exprs g :: spanEraser.guards gs := rfl
    rw [hrec, spanEraser_exprs, spanEraser_guards gs]
    rfl

theorem spanEraser_clauses : ∀ cs : List (Located Clause), spanEraser.clauses cs = erase cs
  | [] => rfl
  | ⟨⟨ps, gs, body⟩, s⟩ :: cs => by
    have hrec : spanEraser.clauses (⟨⟨ps, gs, body⟩, s⟩ :: cs) =
        ⟨⟨spanEraser.exprs ps, spanEraser.guards gs, spanEraser.exprs body⟩, .nowhere⟩ ::
          spanEraser.clauses cs := rfl
    rw [hrec, spanEraser_exprs, spanEraser_exprs, spanEraser_guards, spanEraser_clauses cs]
    rfl

theorem spanEraser_segments : ∀ ss : List Segment, spanEraser.segments ss = erase ss
  | [] => rfl
  | ⟨value, size, types⟩ :: ss => by
    have hrec : spanEraser.segments (⟨value, size, types⟩ :: ss) =
        ⟨erase value, spanEraser.optional size, types⟩ :: spanEraser.segments ss := rfl
    rw [hrec, spanEraser_optional, spanEraser_segments ss]
    rfl

theorem spanEraser_mapFields : ∀ fs : List MapField, spanEraser.mapFields fs = erase fs
  | [] => rfl
  | ⟨key, op, value⟩ :: fs =>
    congrArg (erase (⟨key, op, value⟩ : MapField) :: ·) (spanEraser_mapFields fs)

theorem spanEraser_recordFields : ∀ fs : List RecordField, spanEraser.recordFields fs = erase fs
  | [] => rfl
  | ⟨n, value⟩ :: fs =>
    congrArg (erase (⟨n, value⟩ : RecordField) :: ·) (spanEraser_recordFields fs)

theorem spanEraser_qualifiers : ∀ qs : List Qualifier, spanEraser.qualifiers qs = erase qs
  | [] => rfl
  | .generator p e :: qs =>
      congrArg (erase (Qualifier.generator p e) :: ·) (spanEraser_qualifiers qs)
  | .binaryGenerator p e :: qs =>
    congrArg (erase (Qualifier.binaryGenerator p e) :: ·) (spanEraser_qualifiers qs)
  | .filter e :: qs => congrArg (erase (Qualifier.filter e) :: ·) (spanEraser_qualifiers qs)

theorem spanEraser_after : ∀ a : Option After, spanEraser.after a = erase a
  | none => rfl
  | some ⟨timeout, body⟩ => by
    have hrec : spanEraser.after (some ⟨timeout, body⟩) =
        some ⟨erase timeout, spanEraser.exprs body⟩ := rfl
    rw [hrec, spanEraser_exprs]
    rfl

/-! ### Nodes -/

/-- The node with all parts erased. -/
def Expr.eraseParts : Expr → Expr
  | integer n => integer n
  | float x => float x
  | char c => char c
  | string s => string s
  | atom a => atom a
  | var v => var v
  | tuple es => tuple (erase es)
  | list es tail => list (erase es) (erase tail)
  | binary ss => binary (erase ss)
  | map base fs => map (erase base) (erase fs)
  | record base n fs => record (erase base) n (erase fs)
  | recordIndex n f => recordIndex n f
  | recordAccess base n f => recordAccess (erase base) n f
  | matchExpr p v => matchExpr (erase p) (erase v)
  | binaryOp op a b => binaryOp op (erase a) (erase b)
  | unaryOp op a => unaryOp op (erase a)
  | call f args => call (erase f) (erase args)
  | remote a f => remote (erase a) (erase f)
  | block es => block (erase es)
  | caseExpr e cs => caseExpr (erase e) (erase cs)
  | ifExpr cs => ifExpr (erase cs)
  | receiveExpr cs a => receiveExpr (erase cs) (erase a)
  | tryExpr es os cs a => tryExpr (erase es) (erase os) (erase cs) (erase a)
  | catchExpr e => catchExpr (erase e)
  | listComp e qs => listComp (erase e) (erase qs)
  | binaryComp e qs => binaryComp (erase e) (erase qs)
  | funExpr n cs => funExpr n (erase cs)
  | funRef a f n => funRef (erase a) (erase f) (erase n)
  | macroUse n args => macroUse n (erase args)

instance : Erasable Expr := ⟨Expr.eraseParts⟩

/-- A node without the spans in it. The parts have been dealt with above. -/
theorem spanEraser_node (e : Expr) : spanEraser.node e = e.eraseParts := by
  cases e
  all_goals simp only [Expr.eraseParts, ← spanEraser_exprs, ← spanEraser_optional,
    ← spanEraser_clauses, ← spanEraser_segments, ← spanEraser_mapFields, ← spanEraser_recordFields,
    ← spanEraser_qualifiers, ← spanEraser_after]
  case macroUse n args =>
    cases args <;>
      simp only [erase_none, erase_some, ← spanEraser_exprs] <;> rfl
  all_goals rfl

theorem erase_expr (e : Expr) (s : Span) :
    erase (⟨e, s⟩ : Located Expr) = ⟨e.eraseParts, .nowhere⟩ :=
  congrArg (Located.mk · Span.nowhere) (spanEraser_node e)

/-- Erased expressions are the same if their nodes are: the spans have gone. -/
theorem erase_congr {e f : Expr} (h : e.eraseParts = f.eraseParts) (s t : Span) :
    erase (⟨e, s⟩ : Located Expr) = erase (⟨f, t⟩ : Located Expr) := by
  rw [erase_expr, erase_expr, h]

/-! ### Forms -/

def AttributeValue.eraseSpans : AttributeValue → AttributeValue
  | exprs args => exprs (erase args)
  | tokens ts => tokens ts

instance : Erasable AttributeValue := ⟨AttributeValue.eraseSpans⟩

def Form.eraseParts : Form → Form
  | .function name arity clauses => .function (erase name) arity (erase clauses)
  | .attribute name value => .attribute (erase name) (erase value)

instance : Erasable Form := ⟨Form.eraseParts⟩

theorem spanEraser_form (f : Located Form) : spanEraser.form f = erase f := by
  rcases f with ⟨⟨name, arity, cs⟩ | ⟨name, args | ts⟩, s⟩
  · have hrec : spanEraser.form ⟨.function name arity cs, s⟩ =
        ⟨.function (erase name) arity (spanEraser.clauses cs), .nowhere⟩ := rfl
    rw [hrec, spanEraser_clauses]
    rfl
  · have hrec : spanEraser.form ⟨.attribute name (.exprs args), s⟩ =
        ⟨.attribute (erase name) (.exprs (spanEraser.exprs args)), .nowhere⟩ := rfl
    rw [hrec, spanEraser_exprs]
    rfl
  · rfl

/-- The spans of forms are erased form by form. -/
theorem eraseSpans_eq : ∀ fs : List (Located Form), eraseSpans fs = erase fs
  | [] => rfl
  | f :: fs => by
    have hrec : eraseSpans (f :: fs) = spanEraser.form f :: eraseSpans fs := rfl
    rw [hrec, spanEraser_form, eraseSpans_eq fs]
    rfl

end ErlangFragment
