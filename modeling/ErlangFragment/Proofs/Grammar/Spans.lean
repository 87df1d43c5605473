import ErlangFragment.Proofs.Grammar.Forms
import ErlangFragment.Proofs.Source
import ErlangFragment.Proofs.Token.Position
import ErlangFragment.Proofs.Tree.Spans

/-! The spans of trees. Tokens that stand in the text after each other give nodes whose spans mark
the text of their tokens, each within the one around it. -/

namespace ErlangFragment

namespace Span

theorem stop_le_through_left (a b : Span) : a.stop ≤ (a.through b).stop := Nat.le_max_right _ _

theorem stop_le_through_right (a b : Span) : b.stop ≤ (a.through b).stop := Nat.le_max_left _ _

@[simp] theorem start_through (a b : Span) : (a.through b).start = a.start := rfl

end Span

open ErlangFragment.Span

section

variable {text : List Char} {line : Nat}

/-- The span marks a part of the text between `low` and `high`. -/
def Inside (text : List Char) (line low high : Nat) (s : Span) : Prop :=
  s.Marks text line ∧ low ≤ s.start ∧ s.stop ≤ high

namespace Inside

variable {low low' high high' : Nat} {s t : Span}

theorem mono (h : Inside text line low high s) (hlow : low' ≤ low) (hhigh : high ≤ high') :
    Inside text line low' high' s :=
  ⟨h.1, Nat.le_trans hlow h.2.1, Nat.le_trans h.2.2 hhigh⟩

theorem through (hs : Inside text line low high s) (ht : Inside text line low high t) :
    Inside text line low high (s.through t) :=
  ⟨hs.1.through ht.1, hs.2.1, Nat.max_le.mpr ⟨ht.2.2, hs.2.2⟩⟩

theorem below (hs : Inside text line low high s) (u : Span)
    (h : Inside text line s.start s.stop u) : Below (Inside text line low high) s u :=
  ⟨h.mono hs.2.1 hs.2.2, h.2⟩

end Inside

/-! ### Spans of several tokens -/

namespace Ordered

variable {low high : Nat} {t l r : Located Token} {ts us : List (Located Token)}

theorem left (h : Ordered text line low (ts ++ us) high) : Ordered text line low ts high := by
  obtain ⟨mid, hts, hus⟩ := h.split
  exact hts.mono (Nat.le_refl _) hus.le

theorem right (h : Ordered text line low (ts ++ us) high) : Ordered text line low us high := by
  obtain ⟨mid, hts, hus⟩ := h.split
  exact hus.mono hts.le (Nat.le_refl _)

theorem tail (h : Ordered text line low (t :: ts) high) : Ordered text line low ts high :=
  h.2.2.mono (Nat.le_trans h.2.1 h.1.start_le_stop) (Nat.le_refl _)

theorem split_cons (h : Ordered text line low (t :: ts) high) :
    ∃ mid, Ordered text line low [t] mid ∧ Ordered text line mid ts high :=
  ⟨t.span.stop, ⟨h.1, h.2.1, Nat.le_refl _⟩, h.2.2⟩

theorem head (h : Ordered text line low (t :: ts) high) : Inside text line low high t.span :=
  ⟨h.1, h.2.1, h.2.2.le⟩

/-- Tokens end where the last of them does. -/
theorem upToLast (h : Ordered text line low ts high) (hne : ts ≠ []) (s : Span) :
    Inside text line low high (lastSpan s ts) ∧ Ordered text line low ts (lastSpan s ts).stop := by
  induction ts generalizing low s with
  | nil => exact absurd rfl hne
  | cons t ts ih =>
      obtain ⟨hmarks, hlow, h⟩ := h
      cases ts with
      | nil => exact ⟨⟨hmarks, hlow, h⟩, hmarks, hlow, Nat.le_refl _⟩
      | cons u us =>
          obtain ⟨hlast, hup⟩ := ih h (List.cons_ne_nil _ _) t.span
          have := hmarks.start_le_stop
          exact ⟨hlast.mono (by omega) (Nat.le_refl _), hmarks, hlow, hup⟩

theorem extent (h : Ordered text line low ts high) (hne : ts ≠ []) :
    Inside text line low high (extent ts) ∧
      Ordered text line (ErlangFragment.extent ts).start ts (ErlangFragment.extent ts).stop := by
  cases ts with
  | nil => exact absurd rfl hne
  | cons t ts =>
      obtain ⟨hlast, hup⟩ := h.upToLast hne t.span
      exact ⟨h.head.through hlast, hup.1, Nat.le_refl _,
        hup.2.2.mono (Nat.le_refl _) (Nat.le_max_left _ _)⟩

/-- Tokens between two others. -/
theorem enclosed (h : Ordered text line low (l :: (ts ++ [r])) high) :
    Inside text line low high (l.span.through r.span) ∧
      Ordered text line (l.span.through r.span).start ts (l.span.through r.span).stop := by
  obtain ⟨mid, hts, hr⟩ := h.2.2.split
  refine ⟨h.head.through (h.tail.right).head, hts.mono h.1.start_le_stop ?_⟩
  have := hr.1.start_le_stop
  have := hr.2.1
  exact Nat.le_trans (by omega) (Nat.le_max_left _ _)

theorem enclosed_pair {p : Located Token}
    (h : Ordered text line low (l :: (ts ++ p :: (us ++ [r]))) high) :
    Inside text line low high (l.span.through r.span) ∧
      Ordered text line (l.span.through r.span).start ts (l.span.through r.span).stop ∧
      Ordered text line (l.span.through r.span).start us (l.span.through r.span).stop := by
  rw [show l :: (ts ++ p :: (us ++ [r])) = l :: ((ts ++ p :: us) ++ [r]) by simp] at h
  obtain ⟨hs, h⟩ := h.enclosed
  exact ⟨hs, h.left, h.right.tail⟩

end Ordered

/-! ### Nodes and clauses -/

namespace Placed

variable {low high : Nat} {s : Span}

theorem expr.span {A : Span → Prop} {e : Located Expr} (h : expr A e) : A e.span := by
  cases e
  exact h.1

/-- An expression does not reach beyond its own span. -/
theorem expr.within {e : Located Expr} (h : expr (Inside text line low high) e)
    (hstart : s.start ≤ e.span.start) (hstop : e.span.stop ≤ s.stop) :
    expr (Inside text line s.start s.stop) e := by
  obtain ⟨e, u⟩ := e
  refine ⟨⟨h.1.1, hstart, hstop⟩, parts_mono e (fun t ht => ?_) h.2⟩
  exact ⟨⟨ht.1.1, Nat.le_trans hstart ht.2.1, Nat.le_trans ht.2.2 hstop⟩, ht.2⟩

theorem node {e : Expr} (hs : Inside text line low high s)
    (h : parts (Inside text line s.start s.stop) e) : expr (Inside text line low high) ⟨e, s⟩ :=
  ⟨hs, parts_mono e hs.below h⟩

theorem clause {ps : List (Located Expr)} {c : Clause} (hs : Inside text line low high s)
    (hps : exprs (Inside text line s.start s.stop) ps)
    (h : c.patterns = ps ∧ guards (Inside text line s.start s.stop) c.guards ∧
      exprs (Inside text line s.start s.stop) c.body) :
    clauses (Inside text line low high) [⟨c, s⟩] := by
  cases c
  obtain ⟨rfl, hgs, hbody⟩ := h
  exact ⟨⟨hs, exprs_mono _ hs.below hps, guards_mono _ hs.below hgs,
    exprs_mono _ hs.below hbody⟩, trivial⟩

end Placed

namespace Grammar

/-! ### Phrases -/

/-- Where the spans of a phrase are, if its tokens stand between `low` and `high`. What grows from
an operand starts where the operand does. -/
def Phrase.Placed (text : List Char) (line low high : Nat) : (ph : Phrase) → ph.Result → Prop
  | .rule _, e | .segmentValue, e => Placed.expr (Inside text line low high) e
  | .operations _ lhs _, e =>
    ∀ start, Placed.expr (Inside text line start low) lhs →
      Placed.expr (Inside text line start high) e
  | .postfixes base, e =>
    ∀ start, Placed.expr (Inside text line start low) base →
      Placed.expr (Inside text line start high) e
  | .arguments, es | .argPatterns, es | .catchPatterns, es =>
    Placed.exprs (Inside text line low high) es
  | .more _ ph, as | .separated _ ph, as | .braced ph, as | .part _ _ ph, as =>
    ∀ a ∈ as, ph.Placed text line low high a
  | .clauseRest patterns, c =>
    c.patterns = patterns ∧ Placed.guards (Inside text line low high) c.guards ∧
      Placed.exprs (Inside text line low high) c.body
  | .caseClause, c | .catchClause, c | .funClause _, c | .ifClause, c =>
    Placed.clauses (Inside text line low high) [c]
  | .mapField, f => Placed.mapFields (Inside text line low high) [f]
  | .recordField, f => Placed.recordFields (Inside text line low high) [f]
  | .qualifier, q => Placed.qualifiers (Inside text line low high) [q]
  | .segmentType, _ | .segmentTypes, _ => True
  | .segmentSize, e => Placed.optional (Inside text line low high) e
  | .segment, s => Placed.segments (Inside text line low high) [s]
  | .after, a => Placed.after (Inside text line low high) a

variable {low high : Nat} {b : Bool} {next : Option Token}

theorem joined {l r : Located Expr} {mid : Nat} (hl : Placed.expr (Inside text line low mid) l)
    (hr : Placed.expr (Inside text line mid high) r) :
    Inside text line low high (l.span.through r.span) ∧
      Placed.expr (Inside text line (l.span.through r.span).start (l.span.through r.span).stop) l ∧
      Placed.expr (Inside text line (l.span.through r.span).start
        (l.span.through r.span).stop) r := by
  obtain ⟨hml, hlow, hmid⟩ := hl.span
  obtain ⟨hmr, hmid', hhigh⟩ := hr.span
  have hle := hml.start_le_stop
  have hle' := hmr.start_le_stop
  refine ⟨Inside.through ⟨hml, hlow, by omega⟩ ⟨hmr, by omega, hhigh⟩,
    hl.within (Nat.le_refl _) (stop_le_through_left _ _), hr.within ?_ (stop_le_through_right _ _)⟩
  rw [start_through]
  omega

theorem join_placed {lhs rhs : Located Expr} {mid : Nat}
    (hl : Placed.expr (Inside text line low mid) lhs)
    (hr : Placed.expr (Inside text line mid high) rhs)
    (op : Option BinaryOp) : Placed.expr (Inside text line low high) (join lhs rhs op) := by
  obtain ⟨hs, hl, hr⟩ := joined hl hr
  cases op <;> exact Placed.node hs ⟨hl, hr⟩

/-- An expression with tokens before it, the first of which starts the span of all. -/
theorem prefixed {e : Located Expr} {t : Located Token} {ts : List (Located Token)} {mid : Nat}
    (h : Ordered text line low (t :: ts) mid) (he : Placed.expr (Inside text line mid high) e) :
    Inside text line low high (t.span.through e.span) ∧
      Ordered text line (t.span.through e.span).start ts (t.span.through e.span).stop ∧
      Placed.expr (Inside text line (t.span.through e.span).start
        (t.span.through e.span).stop) e := by
  have hs := he.span
  have hle := hs.1.start_le_stop
  have hle' := h.1.start_le_stop
  have hmid := h.2.2.le
  have hstop := stop_le_through_right t.span e.span
  refine ⟨(h.head.mono (Nat.le_refl _) ?_).through (hs.mono h.le (Nat.le_refl _)),
    h.2.2.mono hle' ?_, he.within ?_ hstop⟩
  · have := hs.2
    omega
  · have := hs.2
    omega
  · rw [start_through]
    have := hs.2
    omega

/-- An expression with tokens behind it, up to which the span of all reaches. -/
theorem grown {e : Located Expr} {ts : List (Located Token)} {mid : Nat}
    (he : Placed.expr (Inside text line low mid) e) (h : Ordered text line mid ts high)
    (hne : ts ≠ [])
    (s : Span) :
    Inside text line low high (e.span.through (lastSpan s ts)) ∧
      Placed.expr (Inside text line (e.span.through (lastSpan s ts)).start
        (e.span.through (lastSpan s ts)).stop) e ∧
      Ordered text line (e.span.through (lastSpan s ts)).start ts
        (e.span.through (lastSpan s ts)).stop := by
  have hs := he.span
  have hle := hs.1.start_le_stop
  obtain ⟨hlast, hup⟩ := h.upToLast hne s
  refine ⟨(hs.mono (Nat.le_refl _) h.le).through (hlast.mono ?_ (Nat.le_refl _)),
    he.within (Nat.le_refl _) (stop_le_through_left _ _), hup.mono ?_ (stop_le_through_right _ _)⟩
  · have := hs.2
    omega
  · rw [start_through]
    have := hs.2
    omega

theorem simple?_placed {t : Located Token} {e : Expr} (h : simple? t.node = some e)
    (ht : Inside text line low high t.span) :
    Placed.expr (Inside text line low high) ⟨e, t.span⟩ := by
  refine ⟨ht, ?_⟩
  generalize t.node = k at h
  cases k <;> simp only [simple?, Option.some.injEq, reduceCtorEq] at h <;> subst h <;> trivial

/-- A phrase of tokens that stand after each other has its spans among theirs. -/
theorem Derivation.placed {ph : Phrase} {r : ph.Result} {toks : List (Located Token)}
    (d : Derivation b ph r toks next) (h : Ordered text line low toks high) :
    ph.Placed text line low high r := by
  induction d generalizing low high with
  | moreNil | bracedNil | partNone => exact List.forall_mem_nil _
  | moreCons _ _ _ ih ih' => exact List.forall_mem_cons.mpr ⟨ih h.tail.left, ih' h.tail.right⟩
  | separated _ _ ih ih' => exact List.forall_mem_cons.mpr ⟨ih h.left, ih' h.right⟩
  | braced _ _ _ ih => exact ih h.tail.left
  | partSome _ _ ih => exact ih h.tail
  | catchExpr _ _ ih | unaryOp _ _ ih | signedSegmentValue _ _ ih =>
      obtain ⟨mid, ht, h⟩ := Ordered.split_cons h
      obtain ⟨hs, -, he⟩ := prefixed ht (ih h)
      exact Placed.node hs he
  | operators _ ih => exact ih h
  | binary _ _ ih ih' | applied _ _ ih ih' =>
      obtain ⟨mid, h, h'⟩ := h.split
      exact ih' h' low (ih h)
  | operationsNil | postfixesNil =>
      exact fun start he => Placed.expr_mono _ (fun _ ht => ht.mono (Nat.le_refl _) h) he
  | operationsCons _ _ _ _ _ ih ih' =>
      obtain ⟨mid, h, h'⟩ := h.tail.split
      exact fun start hl => ih' h' start (join_placed hl (ih h) _)
  | @call _ e _ _ _ _ _ da _ ih ih' =>
      obtain ⟨mid, h, h'⟩ := h.split
      intro start he
      obtain ⟨hs, he, h⟩ := grown he h da.arguments_ne_nil e.span
      exact ih' h' start (Placed.node hs ⟨he, ih h⟩)
  | @remoteCall _ e _ _ _ _ _ _ _ _ _ _ _ da _ ih ih' ih'' =>
      obtain ⟨mid, h, h'⟩ := h.tail.split
      obtain ⟨mid', h', h''⟩ := h'.split
      intro start he
      obtain ⟨hs, he, hf⟩ := joined he (ih h)
      have hremote := Placed.node (e := .remote _ _) hs ⟨he, hf⟩
      obtain ⟨hs, hremote, h'⟩ := grown hremote h' da.arguments_ne_nil e.span
      exact ih'' h'' start (Placed.node hs ⟨hremote, ih' h'⟩)
  | @mapUpdate _ e _ _ ts us _ t _ _ _ ih ih' =>
      rw [← List.cons_append] at h
      obtain ⟨mid, h, h'⟩ := h.split
      intro start he
      obtain ⟨hs, he, h⟩ := grown he h (List.cons_ne_nil _ _) e.span
      exact ih' h' start (Placed.node hs ⟨he, Placed.mapFields_iff.mpr (ih h.tail)⟩)
  | @recordUpdate _ e _ _ _ ts us _ t n _ _ _ _ ih ih' =>
      rw [← List.cons_append, ← List.cons_append] at h
      obtain ⟨mid, h, h'⟩ := h.split
      intro start he
      obtain ⟨hs, he, h⟩ := grown he h (List.cons_ne_nil _ _) e.span
      exact ih' h' start (Placed.node hs ⟨he, Placed.recordFields_iff.mpr (ih h.tail.tail)⟩)
  | @recordAccess _ e _ _ _ us _ t n d f _ _ _ _ _ ih =>
      have h : Ordered text line low ([t, n, d, f] ++ us) high := h
      obtain ⟨mid, h, h'⟩ := h.split
      intro start he
      obtain ⟨hs, he, -⟩ := grown he h (List.cons_ne_nil _ _) e.span
      exact ih h' start (Placed.node hs he)
  | argumentsNil | argPatternsNil => exact trivial
  | arguments _ _ _ ih | argPatterns _ _ _ ih => exact Placed.exprs_iff.mpr (ih h.tail.left)
  | unguarded _ _ ih => exact ⟨rfl, trivial, Placed.exprs_iff.mpr (ih h.tail)⟩
  | guarded _ _ _ _ ih ih' =>
      exact ⟨rfl, Placed.guards_iff.mpr fun g hg => Placed.exprs_iff.mpr (ih h.tail.left g hg),
        Placed.exprs_iff.mpr (ih' h.tail.right.tail)⟩
  | @caseClause _ pattern _ _ _ _ _ dc ih ih' =>
      obtain ⟨hs, h⟩ := h.extent (List.append_ne_nil_of_right_ne_nil _ dc.clauseRest_ne_nil)
      have hp : Placed.exprs _ [pattern] := ⟨ih h.left, trivial⟩
      exact Placed.clause hs hp (ih' h.right)
  | catchClause _ dc ih ih' | funClause _ dc ih ih' =>
      obtain ⟨hs, h⟩ := h.extent (List.append_ne_nil_of_right_ne_nil _ dc.clauseRest_ne_nil)
      exact Placed.clause hs (ih h.left) (ih' h.right)
  | namedFunClause _ _ _ ih ih' =>
      obtain ⟨hs, h⟩ := h.extent (List.cons_ne_nil _ _)
      exact Placed.clause hs (ih h.tail.left) (ih' h.tail.right)
  | ifClause _ _ _ ih ih' =>
      obtain ⟨hs, h⟩ := h.extent (List.append_ne_nil_of_right_ne_nil _ (List.cons_ne_nil _ _))
      have hnone : ∀ A, Placed.exprs A [] := fun _ => trivial
      exact Placed.clause hs (hnone _)
        ⟨rfl, Placed.guards_iff.mpr fun g hg => Placed.exprs_iff.mpr (ih h.left g hg),
          Placed.exprs_iff.mpr (ih' h.right.tail)⟩
  | reason _ _ ih =>
      have he := ih h
      exact ⟨⟨he.span, trivial⟩, he, ⟨he.span, trivial⟩, trivial⟩
  | classReason _ _ _ _ ih ih' =>
      have hr := ih' h.right.tail
      exact ⟨ih h.left, hr, ⟨hr.span, trivial⟩, trivial⟩
  | classReasonStack _ _ _ _ _ ih ih' ih'' =>
      exact ⟨ih h.left, ih' h.right.tail.left, ih'' h.right.tail.right.tail, trivial⟩
  | assocField _ _ _ ih ih' | exactField _ _ _ ih ih' | generator _ _ _ ih ih'
  | binaryGenerator _ _ _ ih ih' => exact ⟨⟨ih h.left, ih' h.right.tail⟩, trivial⟩
  | recordField _ _ _ ih => exact ⟨⟨h.head, ih h.tail.tail⟩, trivial⟩
  | filter _ _ _ ih => exact ⟨ih h, trivial⟩
  | segmentType | segmentTypeArg | segmentSizeNone | segmentTypesNil | segmentTypes | noAfter =>
      exact trivial
  | segmentValue _ ih => exact ih h
  | segmentSize _ _ ih => exact ih h.tail
  | segment _ _ _ ih ih' _ => exact ⟨⟨ih h.left, ih' h.right.left⟩, trivial⟩
  | after _ _ _ _ ih ih' => exact ⟨ih h.tail.left, Placed.exprs_iff.mpr (ih' h.tail.right.tail)⟩
  | simple hs => exact simple?_placed hs h.head
  | strings hne => exact ⟨(h.extent hne).1, trivial⟩
  | parenthesized _ _ _ ih => exact ih h.tail.left
  | @tupleNil _ _ l r | @listNil _ _ l r | @binaryNil _ _ l r =>
      have h : Ordered text line low (l :: ([] ++ [r])) high := h
      exact ⟨h.enclosed.1, by simp [Placed.parts, Placed.exprs, Placed.optional, Placed.segments]⟩
  | tuple _ _ _ ih | block _ _ _ ih =>
      obtain ⟨hs, h⟩ := h.enclosed
      exact Placed.node hs (Placed.exprs_iff.mpr (ih h))
  | list _ _ _ ih =>
      obtain ⟨hs, h⟩ := h.enclosed
      exact Placed.node hs ⟨Placed.exprs_iff.mpr (ih h), trivial⟩
  | listTail _ _ _ _ _ ih ih' =>
      obtain ⟨hs, h, h'⟩ := h.enclosed_pair
      exact Placed.node hs ⟨Placed.exprs_iff.mpr (ih h), ih' h'⟩
  | listComp _ _ _ _ _ ih ih' =>
      obtain ⟨hs, h, h'⟩ := h.enclosed_pair
      exact Placed.node hs ⟨ih h, Placed.qualifiers_iff.mpr (ih' h')⟩
  | binaryLiteral _ _ _ ih =>
      obtain ⟨hs, h⟩ := h.enclosed
      exact Placed.node hs (Placed.segments_iff.mpr (ih h))
  | binaryComp _ _ _ _ _ ih ih' =>
      obtain ⟨hs, h, h'⟩ := h.enclosed_pair
      obtain ⟨⟨he, -⟩, -⟩ := ih h
      exact Placed.node hs ⟨he, Placed.qualifiers_iff.mpr (ih' h')⟩
  | map _ _ ih =>
      obtain ⟨hs, h⟩ := h.extent (List.cons_ne_nil _ _)
      exact Placed.node hs ⟨trivial, Placed.mapFields_iff.mpr (ih h.tail)⟩
  | record _ _ _ ih =>
      obtain ⟨hs, h⟩ := h.extent (List.cons_ne_nil _ _)
      exact Placed.node hs ⟨trivial, Placed.recordFields_iff.mpr (ih h.tail.tail)⟩
  | recordIndex | macroName => exact ⟨(h.extent (List.cons_ne_nil _ _)).1, trivial⟩
  | macroCall _ _ _ ih =>
      obtain ⟨hs, h⟩ := h.extent (List.cons_ne_nil _ _)
      exact Placed.node hs (ih h.tail.tail)
  | caseExpr _ _ _ _ _ ih ih' =>
      obtain ⟨hs, h, h'⟩ := h.enclosed_pair
      exact Placed.node hs ⟨ih h, Placed.clauses_iff.mpr (ih' h')⟩
  | ifExpr _ _ _ ih | funExpr _ _ _ ih | namedFun _ _ _ ih =>
      obtain ⟨hs, h⟩ := h.enclosed
      exact Placed.node hs (Placed.clauses_iff.mpr (ih h))
  | receiveAfter _ _ _ ih =>
      obtain ⟨hs, h⟩ := h.enclosed
      exact Placed.node hs ⟨trivial, ih h⟩
  | receiveExpr _ _ _ _ ih ih' =>
      rw [← List.append_assoc] at h
      obtain ⟨hs, h⟩ := h.enclosed
      exact Placed.node hs ⟨Placed.clauses_iff.mpr (ih h.left), ih' h.right⟩
  | tryExpr _ _ _ _ _ _ _ ih ih₁ ih₂ ih₃ =>
      rw [← List.append_assoc, ← List.append_assoc, ← List.append_assoc] at h
      obtain ⟨hs, h⟩ := h.enclosed
      exact Placed.node hs ⟨Placed.exprs_iff.mpr (ih h.left.left.left),
        Placed.clauses_iff.mpr (ih₁ h.left.left.right), Placed.clauses_iff.mpr (ih₂ h.left.right),
        Placed.exprs_iff.mpr (ih₃ h.right)⟩
  | @localReference _ _ _ ts _ l f s _ _ _ _ ih =>
      have h : Ordered text line low ([l, f, s] ++ ts) high := h
      obtain ⟨mid, h, h'⟩ := h.split
      obtain ⟨hs, h, ha⟩ := prefixed h (ih h')
      exact Placed.node hs ⟨trivial, ⟨h.head, trivial⟩, ha⟩
  | @remoteReference _ _ _ _ ts us _ l m c s _ _ hm _ _ _ _ ih ih' =>
      rw [show l :: m :: c :: (ts ++ s :: us) = (l :: m :: c :: (ts ++ [s])) ++ us by simp] at h
      obtain ⟨mid, h, h'⟩ := h.split
      obtain ⟨hs, h, ha⟩ := prefixed h (ih' h')
      exact Placed.node hs ⟨simple?_placed hm h.head, ih h.tail.tail.left, ha⟩

/-! ### Forms -/

theorem FunctionClause.placed {name : Located String} {c : Located Clause}
    {ts : List (Located Token)} (d : FunctionClause name c ts next)
    (h : Ordered text line low ts high) :
    Inside text line low high name.span ∧ Placed.clauses (Inside text line low high) [c] := by
  cases d with
  | intro _ dps dc =>
      obtain ⟨hs, h'⟩ := h.extent (List.cons_ne_nil _ _)
      exact ⟨h.head, Placed.clause hs (dps.placed h'.tail.left) (dc.placed h'.tail.right)⟩

theorem FurtherClauses.placed {first : String × Nat} {cs : List (Located Clause)}
    {ts : List (Located Token)} (d : FurtherClauses first cs ts)
    (h : Ordered text line low ts high) :
    Placed.clauses (Inside text line low high) cs := by
  induction d with
  | nil => trivial
  | cons _ dc _ _ ih =>
      exact Placed.clauses_iff.mpr (List.forall_mem_cons.mpr
        ⟨(dc.placed h.tail.left).2, Placed.clauses_iff.mp (ih h.tail.right)⟩)

theorem FormDerivation.placed {f : Located Form} {ts : List (Located Token)}
    (d : FormDerivation f ts) (h : Ordered text line low ts high) :
    Placed.form (Inside text line low high) f := by
  cases d with
  | @function name first cs ts us dfirst dmore =>
      have hextent : name.span.through (lastSpan name.span (ts ++ us)) = extent (ts ++ us) := by
        cases dfirst
        rfl
      rw [hextent]
      have hne : ts ++ us ≠ [] := by
        cases dfirst
        exact List.cons_ne_nil _ _
      obtain ⟨hs, h⟩ := h.extent hne
      obtain ⟨hname, hfirst⟩ := dfirst.placed h.left
      have hcs := dmore.placed h.right
      refine ⟨hs, hs.below _ hname, Placed.clauses_mono _ hs.below ?_⟩
      exact Placed.clauses_iff.mpr (List.forall_mem_cons.mpr ⟨hfirst, Placed.clauses_iff.mp hcs⟩)
  | tokens =>
      obtain ⟨hs, h⟩ := h.extent (List.cons_ne_nil _ _)
      exact ⟨hs, hs.below _ h.tail.head⟩
  | plain | noArgs =>
      obtain ⟨hs, h⟩ := h.extent (List.cons_ne_nil _ _)
      exact ⟨hs, hs.below _ h.tail.head, trivial⟩
  | @args name es ts m n l r _ _ _ _ d _ =>
      have h : Ordered text line low (m :: ((n :: l :: ts) ++ [r])) high := h
      obtain ⟨hs, h⟩ := h.enclosed
      refine ⟨hs, hs.below _ h.head, Placed.exprs_mono _ hs.below ?_⟩
      exact Placed.exprs_iff.mpr (d.placed h.tail.tail)

theorem parseForms_placed {tokens : List (Located Token)} {fs : List (Located Form)}
    (h : parseForms tokens = .ok fs) (ht : Ordered text line low tokens high) :
    ∀ f ∈ fs, Placed.form (Inside text line low high) f := by
  obtain ⟨parts, hcut, hparts⟩ := parseForms_iff.mp h
  rw [← cutForms_flatten hcut] at ht
  clear h hcut
  induction hparts with
  | nil => exact List.forall_mem_nil _
  | cons hf _ ih =>
      rw [List.flatten_cons] at ht
      obtain ⟨toks, t, rfl, -, d⟩ := hf
      exact List.forall_mem_cons.mpr ⟨d.placed ht.left.left, ih ht.right⟩

theorem parseExpressionSequence_placed {tokens : List (Located Token)} {e : Located Expr}
    (h : parseExpressionSequence tokens = .ok e) (ht : Ordered text line low tokens high) :
    Placed.expr (Inside text line low high) e := by
  obtain ⟨body, ⟨toks, t, rfl, -, d⟩, rfl⟩ := parseExpressionSequence_iff.mp h
  obtain ⟨hs, h⟩ := ht.extent (by simp)
  exact Placed.node hs (Placed.exprs_iff.mpr (d.placed h.left))

end Grammar

/-! ### From source to trees -/

variable {source : String}

theorem wrapSnippet_ordered {tokens : List (Located Token)} {endLine : Nat}
    (hline : line ≤ lastLine) (h : tokenize source line = .ok (tokens, endLine)) :
    Ordered source.toList line 0 (wrapSnippet source line endLine tokens)
      (byteLength source.toList) := by
  obtain ⟨hordered, rfl⟩ := tokenize_ordered hline h
  have hstart : Marks source.toList line ⟨0, 0, line⟩ := by
    have hpoint : Marks source.toList line ⟨0, 0, advanceLine line (newlines [])⟩ :=
      marks_point (List.nil_append _).symm rfl
    rwa [show newlines [] = 0 from rfl, advanceLine_zero hline] at hpoint
  have hstop : Marks source.toList line ⟨byteLength source.toList, byteLength source.toList,
      advanceLine line (newlines source.toList)⟩ :=
    marks_point (List.append_nil _).symm rfl
  refine ⟨hstart, Nat.zero_le _, hordered.append ?_⟩
  exact ⟨hstop, Nat.le_refl _, hstop, Nat.le_refl _, Nat.le_refl _⟩

/-- A snippet and the forms of a text have their spans where they should be: all of them mark a part
of the text and are on its line, and each lies within those of the forms, clauses and expressions
around it. -/
theorem parsed_spans (source : String) {line : Nat} (hline : line ≤ lastLine) :
    (∀ e, parseSnippetAt source line = .ok e → Placed.expr (Marks source.toList line) e) ∧
      ∀ fs, parseDeclarationsAt source line = .ok fs →
        ∀ f ∈ fs, Placed.form (Marks source.toList line) f := by
  refine ⟨fun e h => ?_, fun fs h f hf => ?_⟩
  · obtain ⟨tokens, endLine, span, ht, hp⟩ := parseSnippetAt_block h
    obtain ⟨-, he, -⟩ := Grammar.parseExpressionSequence_placed hp (wrapSnippet_ordered hline ht)
    exact Placed.expr_mono e (fun _ ht => ht.1.1) he
  · obtain ⟨tokens, endLine, ht, hp⟩ := parseForms_of_parseDeclarationsAt h
    have hplaced := Grammar.parseForms_placed hp (tokenize_ordered hline ht).1 f hf
    exact Placed.form_mono (fun _ ht => ht.1) f hplaced

/-- The spans of a tuple over two lines, and of a function. -/
theorem parsed_spans_tuple :
    2 ≤ lastLine ∧
      (∃ e, parseSnippetAt "\x7bX,\n Y\x7d" 2 = .ok e ∧
        Placed.expr (Marks "\x7bX,\n Y\x7d".toList 2) e) ∧
      ∃ fs, parseDeclarationsAt "f() -> a." 2 = .ok fs ∧
        ∀ f ∈ fs, Placed.form (Marks "f() -> a.".toList 2) f := by
  have htuple : parseSnippetAt "\x7bX,\n Y\x7d" 2 = .ok ⟨.block [⟨.tuple [⟨.var "X", ⟨1, 2, 2⟩⟩,
      ⟨.var "Y", ⟨5, 6, 3⟩⟩], ⟨0, 7, 2⟩⟩], ⟨0, 7, 2⟩⟩ := by
    have ht : tokenize "\x7bX,\n Y\x7d" 2 =
        .ok ([⟨.symbol .leftBrace, ⟨0, 1, 2⟩⟩, ⟨.var "X", ⟨1, 2, 2⟩⟩,
        ⟨.symbol .comma, ⟨2, 3, 2⟩⟩, ⟨.var "Y", ⟨5, 6, 3⟩⟩,
        ⟨.symbol .rightBrace, ⟨6, 7, 3⟩⟩], 3) := by
      decide +kernel
    rw [parseSnippetAt_of_byteLength 7 ht (by decide +kernel)]
    cbv
  have hfunction : parseDeclarationsAt "f() -> a." 2 = .ok [⟨.function ⟨"f", ⟨0, 1, 2⟩⟩ 0
      [⟨⟨[], [], [⟨.atom "a", ⟨7, 8, 2⟩⟩]⟩, ⟨0, 8, 2⟩⟩], ⟨0, 8, 2⟩⟩] := by
    have ht : tokenize "f() -> a." 2 =
        .ok ([⟨.atom "f", ⟨0, 1, 2⟩⟩, ⟨.symbol .leftParen, ⟨1, 2, 2⟩⟩,
        ⟨.symbol .rightParen, ⟨2, 3, 2⟩⟩, ⟨.symbol .arrow, ⟨4, 6, 2⟩⟩, ⟨.atom "a", ⟨7, 8, 2⟩⟩,
        ⟨.terminator, ⟨8, 9, 2⟩⟩], 2) := by
      decide +kernel
    rw [parseDeclarationsAt_eq ht]
    cbv
  exact ⟨by decide, ⟨_, htuple, (parsed_spans _ (by decide)).1 _ htuple⟩,
    ⟨_, hfunction, (parsed_spans _ (by decide)).2 _ hfunction⟩⟩

end

end ErlangFragment
