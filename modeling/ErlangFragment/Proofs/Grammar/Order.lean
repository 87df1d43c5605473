import ErlangFragment.Proofs.Grammar.Spans
import ErlangFragment.Proofs.Source
import ErlangFragment.Proofs.Tree.Order

/-! Traversals go through a text from left to right. Each expression is met before those that start
behind it, apart from the classes and stacktraces that the text leaves out. -/

namespace ErlangFragment

namespace Encounters

/-- The starts of the expressions that the text has, in the order in which they are met. -/
def starts (es : List Encounter) : List Nat :=
  (es.filter fun m => !m.isFilledIn).map fun m => m.expr.span.start

/-- The expressions start between `low` and `high`, one after another. Those that stand for no text
of their own are filled in, and the others stand apart from their reason. -/
structure InOrder (low high : Nat) (es : List Encounter) : Prop where
  le : low ≤ high
  ascending : (starts es).Pairwise (· ≤ ·)
  between : ∀ n ∈ starts es, low ≤ n ∧ n ≤ high
  apart : ∀ m ∈ es, m.isFilledIn = true ∨ m.Apart

variable {low mid high : Nat} {es fs : List Encounter} {role : Role} {e r : Located Expr}

@[simp] theorem starts_append : starts (es ++ fs) = starts es ++ starts fs := by
  simp [starts]

theorem starts_expr_plain (e : Expr) (s : Span) :
    starts (expr .plain ⟨e, s⟩) = s.start :: starts (node e) := rfl

theorem starts_filledIn {e : Expr} {s : Span} (h : Encounter.isFilledIn ⟨role, ⟨e, s⟩⟩ = true) :
    starts (expr role ⟨e, s⟩) = [] := by
  simp [expr, node_eq_nil h, starts, h]

theorem starts_apart {e : Expr} {s : Span} (h : Encounter.Apart ⟨role, ⟨e, s⟩⟩) :
    starts (expr role ⟨e, s⟩) = starts (expr .plain ⟨e, s⟩) := by
  rw [starts_expr_plain]
  simp [expr, starts, h.isFilledIn]

namespace InOrder

theorem nil (h : low ≤ high) : InOrder low high [] :=
  ⟨h, .nil, List.forall_mem_nil _, List.forall_mem_nil _⟩

theorem append (h : InOrder low mid es) (h' : InOrder mid high fs) :
    InOrder low high (es ++ fs) where
  le := Nat.le_trans h.le h'.le
  ascending := by
    rw [starts_append]
    refine List.pairwise_append.mpr ⟨h.ascending, h'.ascending, fun m hm n hn => ?_⟩
    exact Nat.le_trans (h.between m hm).2 (h'.between n hn).1
  between := by
    rw [starts_append]
    refine List.forall_mem_append.mpr ⟨fun n hn => ?_, fun n hn => ?_⟩
    · exact ⟨(h.between n hn).1, Nat.le_trans (h.between n hn).2 h'.le⟩
    · exact ⟨Nat.le_trans h.le (h'.between n hn).1, (h'.between n hn).2⟩
  apart := List.forall_mem_append.mpr ⟨h.apart, h'.apart⟩

theorem mono {low' high' : Nat} (h : InOrder low high es) (hlow : low' ≤ low)
    (hhigh : high ≤ high') :
    InOrder low' high' es where
  le := by have := h.le; omega
  ascending := h.ascending
  between n hn := by have := h.between n hn; omega
  apart := h.apart

/-- A node comes first, and what is inside it starts where it does or later. -/
theorem node {e : Expr} {s : Span} (hs : low ≤ s.start) (h : InOrder s.start high (node e)) :
    InOrder low high (expr .plain ⟨e, s⟩) where
  le := Nat.le_trans hs h.le
  ascending := by
    rw [starts_expr_plain]
    exact .cons (fun n hn => (h.between n hn).1) h.ascending
  between := by
    rw [starts_expr_plain]
    refine List.forall_mem_cons.mpr ⟨⟨hs, h.le⟩, fun n hn => ?_⟩
    exact ⟨Nat.le_trans hs (h.between n hn).1, (h.between n hn).2⟩
  apart := List.forall_mem_cons.mpr ⟨.inr trivial, h.apart⟩

/-- An expression starts at its own start. -/
theorem fromStart (h : InOrder low high (expr .plain e)) :
    low ≤ e.span.start ∧ InOrder e.span.start high (expr .plain e) := by
  obtain ⟨e, s⟩ := e
  have hascending := h.ascending
  have hbetween := h.between
  rw [starts_expr_plain] at hascending hbetween
  obtain ⟨hs, hinside⟩ := List.forall_mem_cons.mp hbetween
  obtain ⟨hbehind, -⟩ := List.pairwise_cons.mp hascending
  refine ⟨hs.1, hs.2, h.ascending, ?_, h.apart⟩
  rw [starts_expr_plain]
  exact List.forall_mem_cons.mpr
    ⟨⟨Nat.le_refl _, hs.2⟩, fun n hn => ⟨hbehind n hn, (hinside n hn).2⟩⟩

/-- A class or a stacktrace that the text has. -/
theorem inRole (h : InOrder low high (expr .plain e)) (hapart : Encounter.Apart ⟨role, e⟩) :
    InOrder low high (expr role e) := by
  obtain ⟨e, s⟩ := e
  have hstarts := starts_apart hapart
  refine ⟨h.le, hstarts ▸ h.ascending, hstarts ▸ h.between, ?_⟩
  exact List.forall_mem_cons.mpr ⟨.inr hapart, (List.forall_mem_cons.mp h.apart).2⟩

/-- A class or a stacktrace that the text leaves out. -/
theorem filledIn {e : Expr} {s : Span} (h : low ≤ high)
    (hfilled : Encounter.isFilledIn ⟨role, ⟨e, s⟩⟩ = true) :
    InOrder low high (expr role ⟨e, s⟩) := by
  have hstarts := starts_filledIn hfilled
  refine ⟨h, hstarts ▸ .nil, by simp [hstarts], ?_⟩
  rw [expr, node_eq_nil hfilled]
  exact List.forall_mem_singleton.mpr (.inl hfilled)

theorem filledClass (h : low ≤ high) (r : Located Expr) :
    InOrder low high (expr (.classOf r) ⟨.atom "throw", r.span⟩) :=
  filledIn h (by simp [Encounter.isFilledIn])

theorem filledStacktrace (h : low ≤ high) (r : Located Expr) :
    InOrder low high (expr (.stacktraceOf r) ⟨.var "_", r.span⟩) :=
  filledIn h (by simp [Encounter.isFilledIn])

end InOrder

/-- The elements fulfil `P` between places that follow each other. -/
def Chain {α : Type} (P : Nat → Nat → α → Prop) : Nat → Nat → List α → Prop
  | low, high, [] => low ≤ high
  | low, high, a :: as => ∃ mid, P low mid a ∧ Chain P mid high as

theorem Chain.imp {α : Type} {P Q : Nat → Nat → α → Prop} {as : List α}
    (h : ∀ low high a, P low high a → Q low high a) (hP : Chain P low high as) :
    Chain Q low high as := by
  induction as generalizing low with
  | nil => exact hP
  | cons a as ih =>
      obtain ⟨mid, ha, has⟩ := hP
      exact ⟨mid, h _ _ _ ha, ih has⟩

/-- What is met in a list is met in its elements one after another. -/
theorem Chain.inOrder {α : Type} {f : List α → List Encounter} {g : α → List Encounter}
    {as : List α} (hnil : f [] = []) (hcons : ∀ a as, f (a :: as) = g a ++ f as)
    (h : Chain (fun low high a => InOrder low high (g a)) low high as) :
    InOrder low high (f as) := by
  induction as generalizing low with
  | nil =>
      rw [hnil]
      exact .nil h
  | cons a as ih =>
      obtain ⟨mid, ha, has⟩ := h
      rw [hcons]
      exact ha.append (ih has)

theorem InOrder.clause {ps : List (Located Expr)} {c : Clause} {s : Span}
    (hps : InOrder low mid (exprs ps))
    (h : c.patterns = ps ∧ InOrder mid high (guards c.guards ++ exprs c.body)) :
    InOrder low high (clauses [⟨c, s⟩]) := by
  obtain ⟨_, gs, body⟩ := c
  obtain ⟨rfl, h⟩ := h
  rw [clauses, clauses, List.append_nil]
  exact hps.append h

theorem InOrder.catchClause {ps : List (Located Expr)} {c : Clause} {s : Span}
    (hps : InOrder low mid (catchPatterns ps))
    (h : c.patterns = ps ∧ InOrder mid high (guards c.guards ++ exprs c.body)) :
    InOrder low high (catchClauses [⟨c, s⟩]) := by
  obtain ⟨_, gs, body⟩ := c
  obtain ⟨rfl, h⟩ := h
  rw [catchClauses, catchClauses, List.append_nil]
  exact hps.append h

end Encounters

namespace Grammar

/-! ### Tokens -/

/-- Tokens that stand after each other, with colons that are not empty. -/
structure Laid (text : List Char) (line low : Nat) (toks : List (Located Token)) (high : Nat) :
    Prop where
  ordered : Ordered text line low toks high
  solid : ∀ t ∈ toks, t.node = .symbol .colon → t.span.start < t.span.stop

section

variable {text : List Char} {line low high : Nat} {b : Bool} {next : Option Token}
  {t : Located Token}
  {ts us : List (Located Token)} {e lhs rhs : Located Expr}

namespace Laid

theorem split (h : Laid text line low (ts ++ us) high) :
    ∃ mid, Laid text line low ts mid ∧ Laid text line mid us high := by
  obtain ⟨mid, hts, hus⟩ := h.ordered.split
  obtain ⟨hts', hus'⟩ := List.forall_mem_append.mp h.solid
  exact ⟨mid, ⟨hts, hts'⟩, hus, hus'⟩

theorem left (h : Laid text line low (ts ++ us) high) : Laid text line low ts high :=
  ⟨h.ordered.left, (List.forall_mem_append.mp h.solid).1⟩

theorem tail (h : Laid text line low (t :: ts) high) : Laid text line low ts high :=
  ⟨h.ordered.tail, (List.forall_mem_cons.mp h.solid).2⟩

/-- What is behind a token starts where the token does or later. -/
theorem behind (h : Laid text line low (t :: ts) high) :
    low ≤ t.span.start ∧ Laid text line t.span.start ts high := by
  obtain ⟨⟨ht, hlow, hts⟩, hsolid⟩ := h
  exact ⟨hlow, hts.mono ht.start_le_stop (Nat.le_refl _), (List.forall_mem_cons.mp hsolid).2⟩

/-- A colon parts what is before it from what is behind it. -/
theorem colon (h : Laid text line low (t :: ts) high) (ht : t.node = .symbol .colon) :
    ∃ mid, low < mid ∧ Laid text line mid ts high := by
  obtain ⟨⟨_, hlow, hts⟩, hsolid⟩ := h
  obtain ⟨htsolid, hsolid⟩ := List.forall_mem_cons.mp hsolid
  exact ⟨t.span.stop, Nat.lt_of_le_of_lt hlow (htsolid ht), hts, hsolid⟩

theorem extent (h : Laid text line low ts high) (hne : ts ≠ []) :
    low ≤ (extent ts).start ∧ (ErlangFragment.extent ts).start ≤ high := by
  obtain ⟨hinside, -⟩ := h.ordered.extent hne
  exact ⟨hinside.2.1, Nat.le_trans hinside.1.start_le_stop hinside.2.2⟩

end Laid

/-! ### Phrases -/

/-- What is met in a phrase is in order between `low` and `high`, if its tokens stand there. What
grows from an operand is in order from where the operand is. -/
def Phrase.InOrder (low high : Nat) : (ph : Phrase) → ph.Result → Prop
  | .rule _, e | .segmentValue, e => Encounters.InOrder low high (Encounters.expr .plain e)
  | .operations _ lhs _, e =>
    ∀ start, Encounters.InOrder start low (Encounters.expr .plain lhs) →
      Encounters.InOrder start high (Encounters.expr .plain e)
  | .postfixes base, e =>
    ∀ start, Encounters.InOrder start low (Encounters.expr .plain base) →
      Encounters.InOrder start high (Encounters.expr .plain e)
  | .arguments, es | .argPatterns, es => Encounters.InOrder low high (Encounters.exprs es)
  | .catchPatterns, es => Encounters.InOrder low high (Encounters.catchPatterns es)
  | .more _ ph, as | .separated _ ph, as | .braced ph, as | .part _ _ ph, as =>
    Encounters.Chain (fun low high a => ph.InOrder low high a) low high as
  | .clauseRest patterns, c =>
    c.patterns = patterns ∧ Encounters.InOrder low high
      (Encounters.guards c.guards ++ Encounters.exprs c.body)
  | .caseClause, c | .funClause _, c | .ifClause, c =>
      Encounters.InOrder low high (Encounters.clauses [c])
  | .catchClause, c => Encounters.InOrder low high (Encounters.catchClauses [c])
  | .mapField, f => Encounters.InOrder low high (Encounters.mapFields [f])
  | .recordField, f => Encounters.InOrder low high (Encounters.recordFields [f])
  | .qualifier, q => Encounters.InOrder low high (Encounters.qualifiers [q])
  | .segmentType, _ | .segmentTypes, _ => True
  | .segmentSize, e => Encounters.InOrder low high (Encounters.optional e)
  | .segment, s => Encounters.InOrder low high (Encounters.segments [s])
  | .after, a => Encounters.InOrder low high (Encounters.after a)

open Encounters (Chain)

theorem exprs_inOrder {es : List (Located Expr)}
    (h : Chain (fun low high e => Encounters.InOrder low high (Encounters.expr .plain e)) low
      high es) :
    Encounters.InOrder low high (Encounters.exprs es) :=
  h.inOrder rfl fun _ _ => rfl

theorem guards_inOrder {gs : List (List (Located Expr))}
    (h : Phrase.InOrder low high .guardSequence gs) :
    Encounters.InOrder low high (Encounters.guards gs) :=
  Chain.inOrder rfl (fun _ _ => rfl) (Chain.imp (fun _ _ _ => exprs_inOrder) h)

theorem simple?_inOrder {x : Expr} (hlow : low ≤ t.span.start) (hhigh : t.span.start ≤ high)
    (h : simple? t.node = some x) :
    Encounters.InOrder low high (Encounters.expr .plain ⟨x, t.span⟩) := by
  have hinside : Encounters.node x = [] := by
    generalize t.node = k at h
    cases k <;> simp only [simple?, Option.some.injEq, reduceCtorEq] at h <;> subst h <;> rfl
  refine .node hlow ?_
  rw [hinside]
  exact .nil hhigh

theorem join_inOrder {mid : Nat} (hl : Encounters.InOrder low mid (Encounters.expr .plain lhs))
    (hr : Encounters.InOrder mid high (Encounters.expr .plain rhs)) (op : Option BinaryOp) :
    Encounters.InOrder low high (Encounters.expr .plain (join lhs rhs op)) := by
  obtain ⟨hlow, hl⟩ := hl.fromStart
  cases op <;> exact .node hlow (hl.append hr)

/-- A reason alone, with a class and a stacktrace that are filled in. -/
theorem reason_inOrder (h : Encounters.InOrder low high (Encounters.expr .plain e)) :
    Encounters.InOrder low high
      (Encounters.catchPatterns [⟨.atom "throw", e.span⟩, e, ⟨.var "_", e.span⟩]) := by
  have hclass := Encounters.InOrder.filledClass (Nat.le_refl low) e
  have hstacktrace := Encounters.InOrder.filledStacktrace (Nat.le_refl high) e
  exact ((hclass.append h).append hstacktrace).append (.nil (Nat.le_refl _))

/-- A class that the text has, with the reason behind a colon. -/
theorem class_inOrder {k r : Located Expr} {mid mid' : Nat}
    (hk : Encounters.InOrder low mid (Encounters.expr .plain k)) (hmid : mid < mid')
    (hr : Encounters.InOrder mid' high (Encounters.expr .plain r)) :
    Encounters.InOrder low high (Encounters.expr (.classOf r) k ++ Encounters.expr .plain r) := by
  obtain ⟨-, hk'⟩ := hk.fromStart
  obtain ⟨hstart, -⟩ := hr.fromStart
  have hapart : Encounter.Apart ⟨.classOf r, k⟩ :=
    Nat.lt_of_lt_of_le (Nat.lt_of_le_of_lt hk'.le hmid) hstart
  exact (hk.inRole hapart).append (hr.mono (Nat.le_of_lt hmid) (Nat.le_refl _))

/-- A stacktrace that the text has, behind a reason and a colon. -/
theorem stacktrace_inOrder {r s : Located Expr} {mid mid' : Nat}
    (hr : Encounters.InOrder low mid (Encounters.expr .plain r)) (hmid : mid < mid')
    (hs : Encounters.InOrder mid' high (Encounters.expr .plain s)) :
    Encounters.InOrder mid high (Encounters.expr (.stacktraceOf r) s) := by
  obtain ⟨-, hr'⟩ := hr.fromStart
  obtain ⟨hstart, -⟩ := hs.fromStart
  have hapart : Encounter.Apart ⟨.stacktraceOf r, s⟩ :=
    Nat.lt_of_lt_of_le (Nat.lt_of_le_of_lt hr'.le hmid) hstart
  exact (hs.inRole hapart).mono (Nat.le_of_lt hmid) (Nat.le_refl _)

/-- A phrase of tokens that stand after each other is met in order. -/
theorem Derivation.inOrder {ph : Phrase} {r : ph.Result} {toks : List (Located Token)}
    (d : Derivation b ph r toks next) (h : Laid text line low toks high) :
    ph.InOrder low high r := by
  induction d generalizing low high with
  | moreNil | bracedNil | partNone => exact h.ordered.le
  | moreCons _ _ _ ih ih' =>
      obtain ⟨mid, h, h'⟩ := h.tail.split
      exact ⟨mid, ih h, ih' h'⟩
  | separated _ _ ih ih' =>
      obtain ⟨mid, h, h'⟩ := h.split
      exact ⟨mid, ih h, ih' h'⟩
  | braced _ _ _ ih => exact ih h.tail.left
  | partSome _ _ ih => exact ih h.tail
  | catchExpr _ _ ih | unaryOp _ _ ih | signedSegmentValue _ _ ih =>
      obtain ⟨hlow, h⟩ := h.behind
      exact .node hlow (ih h)
  | operators _ ih => exact ih h
  | binary _ _ ih ih' | applied _ _ ih ih' =>
      obtain ⟨mid, h, h'⟩ := h.split
      exact ih' h' low (ih h)
  | operationsNil | postfixesNil => exact fun start he => he.mono (Nat.le_refl _) h.ordered
  | operationsCons _ _ _ _ _ ih ih' =>
      obtain ⟨mid, h, h'⟩ := h.tail.split
      exact fun start hl => ih' h' start (join_inOrder hl (ih h) _)
  | call _ _ ih ih' =>
      obtain ⟨mid, h, h'⟩ := h.split
      intro start he
      obtain ⟨hstart, he⟩ := he.fromStart
      exact ih' h' start (.node hstart (he.append (ih h)))
  | @remoteCall _ e f _ _ _ _ _ _ _ _ _ _ _ _ ih ih' ih'' =>
      obtain ⟨mid, h, h'⟩ := h.tail.split
      obtain ⟨mid', h', h''⟩ := h'.split
      intro start he
      obtain ⟨hstart, he⟩ := he.fromStart
      have hremote :=
        Encounters.InOrder.node (e := .remote e f) (s := e.span.through f.span) hstart
          (he.append (ih h))
      obtain ⟨hstart, hremote⟩ := hremote.fromStart
      exact ih'' h'' start (.node hstart (hremote.append (ih' h')))
  | mapUpdate _ _ _ ih ih' =>
      obtain ⟨mid, h, h'⟩ := h.tail.split
      intro start he
      obtain ⟨hstart, he⟩ := he.fromStart
      exact ih' h' start (.node hstart
        (he.append (Chain.inOrder rfl Encounters.mapFields_cons (ih h))))
  | recordUpdate _ _ _ _ ih ih' =>
      obtain ⟨mid, h, h'⟩ := h.tail.tail.split
      intro start he
      obtain ⟨hstart, he⟩ := he.fromStart
      exact ih' h' start (.node hstart
        (he.append (Chain.inOrder rfl Encounters.recordFields_cons (ih h))))
  | recordAccess _ _ _ _ _ ih =>
      intro start he
      obtain ⟨hstart, he⟩ := he.fromStart
      exact ih h.tail.tail.tail.tail start (.node hstart he)
  | argumentsNil | argPatternsNil => exact .nil h.ordered.le
  | arguments _ _ _ ih | argPatterns _ _ _ ih => exact exprs_inOrder (ih h.tail.left)
  | unguarded _ _ ih => exact ⟨rfl, exprs_inOrder (ih h.tail)⟩
  | guarded _ _ _ _ ih ih' =>
      obtain ⟨mid, h, h'⟩ := h.tail.split
      exact ⟨rfl, (guards_inOrder (ih h)).append (exprs_inOrder (ih' h'.tail))⟩
  | caseClause _ _ ih ih' =>
      obtain ⟨mid, h, h'⟩ := h.split
      exact .clause ((ih h).append (.nil (Nat.le_refl mid))) (ih' h')
  | catchClause _ _ ih ih' =>
      obtain ⟨mid, h, h'⟩ := h.split
      exact .catchClause (ih h) (ih' h')
  | funClause _ _ ih ih' =>
      obtain ⟨mid, h, h'⟩ := h.split
      exact .clause (ih h) (ih' h')
  | namedFunClause _ _ _ ih ih' =>
      obtain ⟨mid, h, h'⟩ := h.tail.split
      exact .clause (ih h) (ih' h')
  | ifClause _ _ _ ih ih' =>
      obtain ⟨mid, h, h'⟩ := h.split
      exact .clause (.nil (Nat.le_refl low))
        ⟨rfl, (guards_inOrder (ih h)).append (exprs_inOrder (ih' h'.tail))⟩
  | reason _ _ ih => exact reason_inOrder (ih h)
  | @classReason _ _ r _ _ _ _ _ ht _ _ ih ih' =>
      obtain ⟨mid, h, h'⟩ := h.split
      obtain ⟨mid', hmid, h'⟩ := h'.colon ht
      have hstacktrace := Encounters.InOrder.filledStacktrace (Nat.le_refl high) r
      exact ((class_inOrder (ih h) hmid (ih' h')).append hstacktrace).append (.nil (Nat.le_refl _))
  | classReasonStack _ ht _ hu _ ih ih' ih'' =>
      obtain ⟨mid, h, h'⟩ := h.split
      obtain ⟨mid', hmid, h'⟩ := h'.colon ht
      obtain ⟨mid₁, h', h''⟩ := h'.split
      obtain ⟨mid₁', hmid₁, h''⟩ := h''.colon hu
      have hstacktrace := stacktrace_inOrder (ih' h') hmid₁ (ih'' h'')
      exact ((class_inOrder (ih h) hmid (ih' h')).append hstacktrace).append (.nil (Nat.le_refl _))
  | assocField _ _ _ ih ih' | exactField _ _ _ ih ih' | generator _ _ _ ih ih'
  | binaryGenerator _ _ _ ih ih' =>
      obtain ⟨mid, h, h'⟩ := h.split
      exact ((ih h).append (ih' h'.tail)).append (.nil (Nat.le_refl _))
  | recordField _ _ _ ih => exact (ih h.tail.tail).append (.nil (Nat.le_refl _))
  | filter _ _ _ ih => exact (ih h).append (.nil (Nat.le_refl _))
  | segmentType | segmentTypeArg | segmentTypesNil | segmentTypes => exact trivial
  | segmentSizeNone | noAfter => exact .nil h.ordered.le
  | segmentValue _ ih => exact ih h
  | segmentSize _ _ ih => exact ih h.tail
  | segment _ _ _ ih ih' _ =>
      obtain ⟨mid, h, h'⟩ := h.split
      obtain ⟨mid', h', h''⟩ := h'.split
      exact ((ih h).append (ih' h')).append (.nil h''.ordered.le)
  | after _ _ _ _ ih ih' =>
      obtain ⟨mid, h, h'⟩ := h.tail.split
      exact (ih h).append (exprs_inOrder (ih' h'.tail))
  | simple hs => exact simple?_inOrder h.behind.1 h.behind.2.ordered hs
  | strings hne =>
      obtain ⟨hlow, hhigh⟩ := h.extent hne
      exact .node hlow (.nil hhigh)
  | parenthesized _ _ _ ih => exact ih h.tail.left
  | tupleNil | binaryNil | recordIndex | macroName =>
      obtain ⟨hlow, h⟩ := h.behind
      exact .node hlow (.nil h.ordered.le)
  | listNil =>
      obtain ⟨hlow, h⟩ := h.behind
      exact .node hlow ((Encounters.InOrder.nil h.ordered.le).append (.nil (Nat.le_refl _)))
  | tuple _ _ _ ih | block _ _ _ ih =>
      obtain ⟨hlow, h⟩ := h.behind
      exact .node hlow (exprs_inOrder (ih h.left))
  | list _ _ _ ih =>
      obtain ⟨hlow, h⟩ := h.behind
      exact .node hlow ((exprs_inOrder (ih h.left)).append (.nil (Nat.le_refl _)))
  | listTail _ _ _ _ _ ih ih' =>
      obtain ⟨hlow, h⟩ := h.behind
      obtain ⟨mid, h, h'⟩ := h.split
      exact .node hlow ((exprs_inOrder (ih h)).append (ih' h'.tail.left))
  | listComp _ _ _ _ _ ih ih' =>
      obtain ⟨hlow, h⟩ := h.behind
      obtain ⟨mid, h, h'⟩ := h.split
      exact .node hlow ((ih h).append
        (Chain.inOrder rfl Encounters.qualifiers_cons (ih' h'.tail.left)))
  | binaryLiteral _ _ _ ih =>
      obtain ⟨hlow, h⟩ := h.behind
      exact .node hlow (Chain.inOrder rfl Encounters.segments_cons (ih h.left))
  | binaryComp _ _ _ _ _ ih ih' =>
      obtain ⟨hlow, h⟩ := h.behind
      obtain ⟨mid, h, h'⟩ := h.split
      have htemplate := ih h
      simp only [Phrase.InOrder, Encounters.segments, Encounters.optional,
        List.append_nil] at htemplate
      exact .node hlow (htemplate.append
        (Chain.inOrder rfl Encounters.qualifiers_cons (ih' h'.tail.left)))
  | map _ _ ih =>
      obtain ⟨hlow, h⟩ := h.behind
      exact .node hlow (Chain.inOrder rfl Encounters.mapFields_cons (ih h))
  | record _ _ _ ih =>
      obtain ⟨hlow, h⟩ := h.behind
      exact .node hlow (Chain.inOrder rfl Encounters.recordFields_cons (ih h.tail))
  | macroCall _ _ _ ih =>
      obtain ⟨hlow, h⟩ := h.behind
      exact .node hlow (ih h.tail)
  | caseExpr _ _ _ _ _ ih ih' =>
      obtain ⟨hlow, h⟩ := h.behind
      obtain ⟨mid, h, h'⟩ := h.split
      exact .node hlow ((ih h).append
        (Chain.inOrder rfl Encounters.clauses_cons (ih' h'.tail.left)))
  | ifExpr _ _ _ ih | funExpr _ _ _ ih | namedFun _ _ _ ih =>
      obtain ⟨hlow, h⟩ := h.behind
      exact .node hlow (Chain.inOrder rfl Encounters.clauses_cons (ih h.left))
  | receiveAfter _ _ _ ih =>
      obtain ⟨hlow, h⟩ := h.behind
      exact .node hlow (ih h.left)
  | receiveExpr _ _ _ _ ih ih' =>
      obtain ⟨hlow, h⟩ := h.behind
      obtain ⟨mid, h, h'⟩ := h.split
      exact .node hlow ((Chain.inOrder rfl Encounters.clauses_cons (ih h)).append (ih' h'.left))
  | tryExpr _ _ _ _ _ _ _ ih ih₁ ih₂ ih₃ =>
      obtain ⟨hlow, h⟩ := h.behind
      obtain ⟨mid, h, h'⟩ := h.split
      obtain ⟨mid₁, h₁, h'⟩ := h'.split
      obtain ⟨mid₂, h₂, h₃⟩ := h'.split
      have hbody :=
        (exprs_inOrder (ih h)).append (Chain.inOrder rfl Encounters.clauses_cons (ih₁ h₁))
      have hcatch := Chain.inOrder rfl Encounters.catchClauses_cons (ih₂ h₂)
      exact .node hlow ((hbody.append hcatch).append (exprs_inOrder (ih₃ h₃.left)))
  | @localReference _ name _ _ _ _ f _ _ _ _ _ ih =>
      obtain ⟨hlow, h⟩ := h.behind
      obtain ⟨hlow', h⟩ := h.behind
      have hname :=
        Encounters.InOrder.node (e := .atom name) hlow' (.nil (Nat.le_refl f.span.start))
      exact .node hlow (hname.append (ih h.tail))
  | remoteReference _ _ hm _ _ _ _ ih ih' =>
      obtain ⟨hlow, h⟩ := h.behind
      obtain ⟨hlow', h⟩ := h.behind
      obtain ⟨mid, h, h'⟩ := h.tail.split
      have hmodule := simple?_inOrder hlow' (Nat.le_refl _) hm
      exact .node hlow ((hmodule.append (ih h)).append (ih' h'.tail))

/-! ### Forms -/

theorem FunctionClause.inOrder {name : Located String} {c : Located Clause}
    (d : FunctionClause name c ts next) (h : Laid text line low ts high) :
    Encounters.InOrder low high (Encounters.clauses [c]) := by
  cases d with
  | intro _ dps dc =>
      obtain ⟨mid, h, h'⟩ := h.tail.split
      exact .clause (dps.inOrder h) (dc.inOrder h')

theorem FurtherClauses.inOrder {first : String × Nat} {cs : List (Located Clause)}
    (d : FurtherClauses first cs ts) (h : Laid text line low ts high) :
    Encounters.InOrder low high (Encounters.clauses cs) := by
  induction d generalizing low with
  | nil => exact .nil h.ordered
  | cons _ dc _ _ ih =>
      obtain ⟨mid, h, h'⟩ := h.tail.split
      rw [Encounters.clauses_cons]
      exact (dc.inOrder h).append (ih h')

theorem FormDerivation.inOrder {f : Located Form} (d : FormDerivation f ts)
    (h : Laid text line low ts high) :
    Encounters.InOrder low high (Encounters.form f.node) := by
  cases d with
  | function dfirst dmore =>
      obtain ⟨mid, h, h'⟩ := h.split
      rw [Encounters.form, Encounters.clauses_cons]
      exact (dfirst.inOrder h).append (dmore.inOrder h')
  | tokens | plain | noArgs => exact .nil h.ordered.le
  | args _ _ _ _ d _ => exact exprs_inOrder (d.inOrder h.tail.tail.tail.left)

theorem parseForms_inOrder {fs : List (Located Form)} (h : parseForms ts = .ok fs)
    (ht : Laid text line low ts high) :
    Encounters.InOrder low high (Encounters.forms fs) := by
  obtain ⟨parts, hcut, hparts⟩ := parseForms_iff.mp h
  rw [← cutForms_flatten hcut] at ht
  clear h hcut
  induction hparts generalizing low with
  | nil => exact .nil ht.ordered
  | cons hf _ ih =>
      rw [List.flatten_cons] at ht
      obtain ⟨toks, t, rfl, -, d⟩ := hf
      obtain ⟨mid, h, h'⟩ := ht.split
      exact (d.inOrder h.left).append (ih h')

theorem parseExpressionSequence_inOrder {es : List (Located Expr)} {span : Span}
    (h : parseExpressionSequence ts = .ok ⟨.block es, span⟩) (ht : Laid text line low ts high) :
    Encounters.InOrder low high (Encounters.exprs es) := by
  obtain ⟨body, ⟨toks, t, rfl, -, d⟩, heq⟩ := parseExpressionSequence_iff.mp h
  cases heq
  exact exprs_inOrder (d.inOrder ht.left)

end

end Grammar

/-! ### From source to trees -/

section

variable {source : String} {line : Nat}

theorem tokenize_laid {tokens : List (Located Token)} {endLine : Nat} (hline : line ≤ lastLine)
    (h : tokenize source line = .ok (tokens, endLine)) :
    Grammar.Laid source.toList line 0 tokens (byteLength source.toList) :=
  ⟨(tokenize_ordered hline h).1, fun t ht _ => (tokenize_isLexeme hline h t ht).start_lt_stop⟩

theorem wrapSnippet_laid {tokens : List (Located Token)} {endLine : Nat} (hline : line ≤ lastLine)
    (h : tokenize source line = .ok (tokens, endLine)) :
    Grammar.Laid source.toList line 0 (wrapSnippet source line endLine tokens)
      (byteLength source.toList) := by
  refine ⟨wrapSnippet_ordered hline h, fun t ht hcolon => ?_⟩
  -- What is put around the text is no colon.
  have hmem : t ∈ tokens := by
    rcases List.mem_append.mp ht with ht | ht
    · rcases List.mem_cons.mp ht with rfl | ht
      · cases hcolon
      · exact ht
    · rcases List.mem_pair.mp ht with rfl | rfl <;> cases hcolon
  exact (tokenize_laid hline h).solid t hmem hcolon

/-- The traversal that enters everything meets the expressions in the order in which they start in
the text, leaving out the classes and stacktraces of catch clauses that stand for what the text does
not have. Those that are kept start elsewhere than their reason does. -/
structure InSourceOrder (met : List Visited) (es : List Encounter) : Prop where
  sameExprs : es.map Encounter.expr = Visited.exprs met
  ascending : (Encounters.starts es).Pairwise (· ≤ ·)
  keepsText : ∀ m ∈ es, m.isFilledIn = false ↔ m.Apart

theorem Encounters.InOrder.inSourceOrder {low high : Nat} {es : List Encounter} {met : List Visited}
    (h : Encounters.InOrder low high es)
    (hsame : Encounters.Alongside es met) : InSourceOrder met es where
  sameExprs := hsame
  ascending := h.ascending
  keepsText m hm := by
    refine ⟨fun hkept => ?_, fun hapart => hapart.isFilledIn⟩
    rcases h.apart m hm with hfilled | hapart
    · rw [hkept] at hfilled
      cases hfilled
    · exact hapart

/-- In a snippet and in the forms of a text, the traversal meets the expressions in the order of the
source. -/
theorem traversal_in_source_order (source : String) {line : Nat} (hline : line ≤ lastLine) :
    (∀ e, parseSnippetAt source line = .ok e →
      InSourceOrder (Preorder.expr (fun _ => true) e) (Encounters.expr .plain e)) ∧
    ∀ fs, parseDeclarationsAt source line = .ok fs →
      InSourceOrder (Preorder.forms (fun _ => true) fs) (Encounters.forms fs) := by
  refine ⟨fun e h => ?_, fun fs h => ?_⟩
  · obtain ⟨tokens, endLine, span, ht, hp⟩ := parseSnippetAt_block h
    have hes := Grammar.parseExpressionSequence_inOrder hp (wrapSnippet_laid hline ht)
    rw [Encounters.exprs, Encounters.exprs, List.append_nil] at hes
    exact hes.inSourceOrder (Encounters.expr_alongside _ e)
  · obtain ⟨tokens, endLine, ht, hp⟩ := parseForms_of_parseDeclarationsAt h
    exact (Grammar.parseForms_inOrder hp (tokenize_laid hline ht)).inSourceOrder
      (Encounters.forms_alongside fs)

/-- A catch clause with a reason alone, which looks like the class that is filled in, and one with a
class and a stacktrace of its own. -/
theorem traversal_in_source_order_catch :
    1 ≤ lastLine ∧
      (∃ e, parseSnippetAt "try X catch throw -> a; K:R:S -> S end" 1 = .ok e ∧
        InSourceOrder (Preorder.expr (fun _ => true) e) (Encounters.expr .plain e)) ∧
      ∃ fs, parseDeclarationsAt "f(X) -> X." 1 = .ok fs ∧
        InSourceOrder (Preorder.forms (fun _ => true) fs) (Encounters.forms fs) := by
  have hsnippet : parseSnippetAt "try X catch throw -> a; K:R:S -> S end" 1 = .ok ⟨.block [⟨.tryExpr
      [⟨.var "X", ⟨4, 5, 1⟩⟩] []
      [⟨⟨[⟨.atom "throw", ⟨12, 17, 1⟩⟩, ⟨.atom "throw", ⟨12, 17, 1⟩⟩, ⟨.var "_", ⟨12, 17, 1⟩⟩], [],
          [⟨.atom "a", ⟨21, 22, 1⟩⟩]⟩, ⟨12, 22, 1⟩⟩,
        ⟨⟨[⟨.var "K", ⟨24, 25, 1⟩⟩, ⟨.var "R", ⟨26, 27, 1⟩⟩, ⟨.var "S", ⟨28, 29, 1⟩⟩], [],
          [⟨.var "S", ⟨33, 34, 1⟩⟩]⟩, ⟨24, 34, 1⟩⟩] [], ⟨0, 38, 1⟩⟩], ⟨0, 38, 1⟩⟩ := by
    have ht : tokenize "try X catch throw -> a; K:R:S -> S end" 1 =
        .ok ([⟨.keyword .try_, ⟨0, 3, 1⟩⟩,
        ⟨.var "X", ⟨4, 5, 1⟩⟩, ⟨.keyword .catch_, ⟨6, 11, 1⟩⟩, ⟨.atom "throw", ⟨12, 17, 1⟩⟩,
        ⟨.symbol .arrow, ⟨18, 20, 1⟩⟩, ⟨.atom "a", ⟨21, 22, 1⟩⟩, ⟨.symbol .semicolon, ⟨22, 23, 1⟩⟩,
        ⟨.var "K", ⟨24, 25, 1⟩⟩, ⟨.symbol .colon, ⟨25, 26, 1⟩⟩, ⟨.var "R", ⟨26, 27, 1⟩⟩,
        ⟨.symbol .colon, ⟨27, 28, 1⟩⟩, ⟨.var "S", ⟨28, 29, 1⟩⟩, ⟨.symbol .arrow, ⟨30, 32, 1⟩⟩,
        ⟨.var "S", ⟨33, 34, 1⟩⟩, ⟨.keyword .end_, ⟨35, 38, 1⟩⟩], 1) := by
      decide +kernel
    rw [parseSnippetAt_of_byteLength 38 ht (by decide +kernel)]
    cbv
  have hforms : parseDeclarationsAt "f(X) -> X." 1 = .ok [⟨.function ⟨"f", ⟨0, 1, 1⟩⟩ 1
      [⟨⟨[⟨.var "X", ⟨2, 3, 1⟩⟩], [], [⟨.var "X", ⟨8, 9, 1⟩⟩]⟩, ⟨0, 9, 1⟩⟩], ⟨0, 9, 1⟩⟩] := by
    have ht : tokenize "f(X) -> X." 1 =
        .ok ([⟨.atom "f", ⟨0, 1, 1⟩⟩, ⟨.symbol .leftParen, ⟨1, 2, 1⟩⟩,
        ⟨.var "X", ⟨2, 3, 1⟩⟩, ⟨.symbol .rightParen, ⟨3, 4, 1⟩⟩, ⟨.symbol .arrow, ⟨5, 7, 1⟩⟩,
        ⟨.var "X", ⟨8, 9, 1⟩⟩, ⟨.terminator, ⟨9, 10, 1⟩⟩], 1) := by
      decide +kernel
    rw [parseDeclarationsAt_eq ht]
    cbv
  exact ⟨by decide, ⟨_, hsnippet, (traversal_in_source_order _ (by decide)).1 _ hsnippet⟩,
    ⟨_, hforms, (traversal_in_source_order _ (by decide)).2 _ hforms⟩⟩

end

end ErlangFragment
