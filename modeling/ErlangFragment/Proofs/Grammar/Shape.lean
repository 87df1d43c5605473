import ErlangFragment.Proofs.Grammar.Forms
import ErlangFragment.Proofs.Tree.Shape

/-! Every tree that the grammar reads is well shaped, at every depth, and its leaves are tokens of
the text. -/

namespace ErlangFragment

/-! ### Lists in a requirement -/

namespace Requirement

variable {R : Requirement}

theorem exprs_iff {es : List (Located Expr)} : R.exprs es ↔ ∀ e ∈ es, R.expr e := by
  induction es with
  | nil => simp [exprs]
  | cons e es ih => simp [exprs, ih]

theorem guards_iff {gs : List (List (Located Expr))} : R.guards gs ↔ ∀ g ∈ gs, R.exprs g := by
  induction gs with
  | nil => simp [guards]
  | cons g gs ih => simp [guards, ih]

theorem clauses_iff {cs : List (Located Clause)} : R.clauses cs ↔ ∀ c ∈ cs, R.clauses [c] := by
  induction cs with
  | nil => simp [clauses]
  | cons c cs ih =>
      obtain ⟨⟨_, _, _⟩, _⟩ := c
      simp [clauses, ih]

theorem segments_iff {ss : List Segment} : R.segments ss ↔ ∀ s ∈ ss, R.segments [s] := by
  induction ss with
  | nil => simp [segments]
  | cons s ss ih =>
      obtain ⟨_, _, _⟩ := s
      simp [segments, ih]

theorem mapFields_iff {fs : List MapField} : R.mapFields fs ↔ ∀ f ∈ fs, R.mapFields [f] := by
  induction fs with
  | nil => simp [mapFields]
  | cons f fs ih =>
      obtain ⟨_, _, _⟩ := f
      simp [mapFields, ih]

theorem recordFields_iff {fs : List RecordField} :
    R.recordFields fs ↔ ∀ f ∈ fs, R.recordFields [f] := by
  induction fs with
  | nil => simp [recordFields]
  | cons f fs ih =>
      obtain ⟨_, _⟩ := f
      simp [recordFields, ih]

theorem qualifiers_iff {qs : List Qualifier} : R.qualifiers qs ↔ ∀ q ∈ qs, R.qualifiers [q] := by
  induction qs with
  | nil => simp [qualifiers]
  | cons q qs ih => cases q <;> simp [qualifiers, ih]

end Requirement

namespace Grammar

/-! ### Phrases -/

/-- The shape that a phrase gives to what it is read as. What grows from an operand that stands
before the phrase is well shaped if the operand is. -/
def Phrase.Shaped (P : Token → Prop) : (ph : Phrase) → ph.Result → Prop
  | .rule _, e | .segmentValue, e => (shapedOf P).expr e
  | .operations _ lhs _, e => (shapedOf P).expr lhs → (shapedOf P).expr e
  | .postfixes base, e => (shapedOf P).expr base → (shapedOf P).expr e
  | .arguments, es | .argPatterns, es => (shapedOf P).exprs es
  | .catchPatterns, es => (shapedOf P).exprs es ∧ es.length = 3
  | .more _ ph, as | .braced ph, as | .part _ _ ph, as => ∀ a ∈ as, ph.Shaped P a
  | .separated _ ph, as => as ≠ [] ∧ ∀ a ∈ as, ph.Shaped P a
  | .clauseRest patterns, c =>
    c.patterns = patterns ∧ c.Shaped ∧ (shapedOf P).guards c.guards ∧ (shapedOf P).exprs c.body
  | .caseClause, c => c.node.patterns.length = 1 ∧ (shapedOf P).clauses [c]
  | .catchClause, c => c.node.patterns.length = 3 ∧ (shapedOf P).clauses [c]
  | .funClause _, c => (shapedOf P).clauses [c]
  | .ifClause, c => (c.node.patterns = [] ∧ c.node.guards ≠ []) ∧ (shapedOf P).clauses [c]
  | .mapField, f => (shapedOf P).mapFields [f]
  | .recordField, f => (shapedOf P).recordFields [f]
  | .qualifier, q => (shapedOf P).qualifiers [q]
  | .segmentType, t => ∀ n ∈ t.arg, P (.integer (.small n))
  | .segmentTypes, ts => ∀ t ∈ ts, ∀ n ∈ t.arg, P (.integer (.small n))
  | .segmentSize, e => (shapedOf P).optional e
  | .segment, s => (shapedOf P).segments [s] ∧ ∀ t ∈ s.types, ∀ n ∈ t.arg, P (.integer (.small n))
  | .after, a => (shapedOf P).after a ∧ ∀ x ∈ a, x.body ≠ []

section

variable {P : Token → Prop} {b : Bool} {next : Option Token}

/-- What holds of a phrase between two tokens holds of the phrase, and of what is behind it. -/
theorem forall_mem_between {α : Type} {p : α → Prop} {l r : α} {xs ys : List α}
    (h : ∀ t ∈ l :: (xs ++ r :: ys), p t) : (∀ t ∈ xs, p t) ∧ ∀ t ∈ ys, p t := by
  obtain ⟨-, h⟩ := List.forall_mem_cons.mp h
  obtain ⟨hxs, h⟩ := List.forall_mem_append.mp h
  exact ⟨hxs, (List.forall_mem_cons.mp h).2⟩

/-- A node with the shape and the words that are asked for, over parts that have them too. -/
theorem node_shaped {e : Expr} {span : Span} (hshape : e.Shaped) (hwords : e.Worded P)
    (hparts : (shapedOf P).parts e) (hplace : e.isRemote = false := by rfl) :
    (shapedOf P).expr ⟨e, span⟩ :=
  ⟨hplace, ⟨hshape, hwords⟩, hparts⟩

theorem simple?_shaped {t : Token} {e : Expr} (span : Span) (h : simple? t = some e) (ht : P t) :
    (shapedOf P).expr ⟨e, span⟩ := by
  cases t <;> simp only [simple?, Option.some.injEq, reduceCtorEq] at h <;> subst h
  case atom | char => exact node_shaped trivial trivial trivial
  all_goals exact node_shaped trivial ht trivial

theorem simple?_isAtom_or_isVar {t : Token} {e : Expr} (ht : ∃ name, t = .atom name ∨ t = .var name)
    (h : simple? t = some e) : e.isAtom ∨ e.isVar := by
  obtain ⟨name, rfl | rfl⟩ := ht <;> cases h
  · exact .inl rfl
  · exact .inr rfl

theorem Derivation.funName {name : String} {cs : List (Located Clause)} {ts : List (Located Token)}
    (d : Derivation b (.funClauses (some name)) cs ts next) : ∃ t ∈ ts, t.node = .var name := by
  cases d with
  | separated d _ =>
      cases d with
      | namedFunClause ht => exact ⟨_, by simp, ht⟩

theorem worded_macroUse {name : String} {args : Option (List (Located Expr))} {t : Token}
    (ht : t = .atom name ∨ t = .var name) (h : P t) : (Expr.macroUse name args).Worded P := by
  rcases ht with rfl | rfl
  · exact .inl h
  · exact .inr h

theorem join_shaped {lhs rhs : Located Expr} (hl : (shapedOf P).expr lhs)
    (hr : (shapedOf P).expr rhs) (op : Option BinaryOp) : (shapedOf P).expr (join lhs rhs op) := by
  cases op <;> exact node_shaped trivial trivial ⟨hl, hr⟩

theorem shapedOf_callee {e : Located Expr} (h : (shapedOf P).expr e) : (shapedOf P).callee e := by
  cases e
  exact h.2

theorem clause_shaped {patterns : List (Located Expr)} {c : Clause} {span : Span}
    (hps : (shapedOf P).exprs patterns) (h : Phrase.Shaped P (.clauseRest patterns) c) :
    (shapedOf P).clauses [⟨c, span⟩] := by
  cases c
  obtain ⟨rfl, hc, hgs, hbody⟩ := h
  exact ⟨⟨hc, hps, hgs, hbody⟩, trivial⟩

/-- Clauses that are well shaped one by one, each with a property of its own. -/
theorem clauses_shaped {p : Located Clause → Prop} {cs : List (Located Clause)}
    (h : ∀ c ∈ cs, p c ∧ (shapedOf P).clauses [c]) :
    (∀ c ∈ cs, p c) ∧ (shapedOf P).clauses cs :=
  ⟨fun c hc => (h c hc).1, Requirement.clauses_iff.mpr fun c hc => (h c hc).2⟩

theorem exprs_shaped {es : List (Located Expr)} (h : Phrase.Shaped P .exprs es) :
    es ≠ [] ∧ (shapedOf P).exprs es :=
  ⟨h.1, Requirement.exprs_iff.mpr h.2⟩

theorem guardSequence_shaped {gs : List (List (Located Expr))}
    (h : Phrase.Shaped P .guardSequence gs) :
    gs ≠ [] ∧ (∀ g ∈ gs, g ≠ []) ∧ (shapedOf P).guards gs :=
  ⟨h.1, fun g hg => (exprs_shaped (h.2 g hg)).1,
    Requirement.guards_iff.mpr fun g hg => (exprs_shaped (h.2 g hg)).2⟩

/-- A phrase of tokens that fulfil `P` is well shaped, with leaves that fulfil `P`. The variable `_`
is put where a catch clause leaves out its stacktrace. -/
theorem Derivation.shaped {ph : Phrase} {r : ph.Result} {toks : List (Located Token)}
    (hP : P (.var "_")) (d : Derivation b ph r toks next) (h : ∀ t ∈ toks, P t.node) :
    ph.Shaped P r := by
  induction d with
  | moreNil | bracedNil | partNone => exact List.forall_mem_nil _
  | moreCons _ _ _ ih ih' =>
      obtain ⟨-, h⟩ := List.forall_mem_cons.mp h
      obtain ⟨h, h'⟩ := List.forall_mem_append.mp h
      exact List.forall_mem_cons.mpr ⟨ih h, ih' h'⟩
  | separated _ _ ih ih' =>
      obtain ⟨h, h'⟩ := List.forall_mem_append.mp h
      exact ⟨List.cons_ne_nil _ _, List.forall_mem_cons.mpr ⟨ih h, ih' h'⟩⟩
  | braced _ _ _ ih =>
      exact (ih (forall_mem_between h).1).2
  | partSome _ _ ih => exact (ih (List.forall_mem_cons.mp h).2).2
  | catchExpr _ _ ih => exact node_shaped trivial trivial (ih (List.forall_mem_cons.mp h).2)
  | operators _ ih => exact ih h
  | binary _ _ ih ih' =>
      obtain ⟨h, h'⟩ := List.forall_mem_append.mp h
      exact ih' h' (ih h)
  | operationsNil => exact id
  | operationsCons _ _ _ _ _ ih ih' =>
      obtain ⟨-, h⟩ := List.forall_mem_cons.mp h
      obtain ⟨h, h'⟩ := List.forall_mem_append.mp h
      exact fun hl => ih' h' (join_shaped hl (ih h) _)
  | unaryOp _ _ ih => exact node_shaped trivial trivial (ih (List.forall_mem_cons.mp h).2)
  | applied _ _ ih ih' =>
      obtain ⟨h, h'⟩ := List.forall_mem_append.mp h
      exact ih' h' (ih h)
  | postfixesNil => exact id
  | call _ _ ih ih' =>
      obtain ⟨h, h'⟩ := List.forall_mem_append.mp h
      exact fun he => ih' h' (node_shaped trivial trivial ⟨shapedOf_callee he, ih h⟩)
  | remoteCall _ _ _ _ _ ih ih' ih'' =>
      obtain ⟨-, h⟩ := List.forall_mem_cons.mp h
      obtain ⟨h, h'⟩ := List.forall_mem_append.mp h
      obtain ⟨h', h''⟩ := List.forall_mem_append.mp h'
      exact fun he =>
        ih'' h'' (node_shaped trivial trivial ⟨⟨⟨trivial, trivial⟩, he, ih h⟩, ih' h'⟩)
  | mapUpdate _ _ _ ih ih' =>
      obtain ⟨-, h⟩ := List.forall_mem_cons.mp h
      obtain ⟨h, h'⟩ := List.forall_mem_append.mp h
      exact fun he =>
        ih' h' (node_shaped trivial trivial ⟨he, Requirement.mapFields_iff.mpr (ih h)⟩)
  | recordUpdate _ _ _ _ ih ih' =>
      obtain ⟨-, h⟩ := List.forall_mem_cons.mp h
      obtain ⟨-, h⟩ := List.forall_mem_cons.mp h
      obtain ⟨h, h'⟩ := List.forall_mem_append.mp h
      exact fun he =>
        ih' h' (node_shaped trivial trivial ⟨he, Requirement.recordFields_iff.mpr (ih h)⟩)
  | recordAccess _ _ _ _ _ ih =>
      exact fun he => ih (fun t ht => h t (by simp [ht])) (node_shaped trivial trivial he)
  | argumentsNil | argPatternsNil => exact trivial
  | arguments _ _ _ ih | argPatterns _ _ _ ih =>
      exact (exprs_shaped (ih (forall_mem_between h).1)).2
  | unguarded _ _ ih =>
      obtain ⟨hne, hbody⟩ := exprs_shaped (ih (List.forall_mem_cons.mp h).2)
      exact ⟨rfl, ⟨List.forall_mem_nil _, hne⟩, trivial, hbody⟩
  | guarded _ _ _ _ ih ih' =>
      obtain ⟨h, h'⟩ := forall_mem_between h
      obtain ⟨hne, hbody⟩ := exprs_shaped (ih' h')
      obtain ⟨-, hg, hgs⟩ := guardSequence_shaped (ih h)
      exact ⟨rfl, ⟨hg, hne⟩, hgs, hbody⟩
  | @caseClause _ pattern _ _ _ _ _ _ ih ih' =>
      obtain ⟨h, h'⟩ := List.forall_mem_append.mp h
      have hp : (shapedOf P).exprs [pattern] := ⟨ih h, trivial⟩
      refine ⟨?_, clause_shaped hp (ih' h')⟩
      rw [(ih' h').1]
      rfl
  | reason _ _ ih =>
      exact ⟨⟨node_shaped trivial trivial trivial, ih h, node_shaped trivial hP trivial,
        trivial⟩, rfl⟩
  | classReason _ _ _ _ ih ih' =>
      obtain ⟨h, h'⟩ := List.forall_mem_append.mp h
      obtain ⟨-, h'⟩ := List.forall_mem_cons.mp h'
      exact ⟨⟨ih h, ih' h', node_shaped trivial hP trivial, trivial⟩, rfl⟩
  | classReasonStack _ _ _ _ _ ih ih' ih'' =>
      obtain ⟨h, h'⟩ := List.forall_mem_append.mp h
      obtain ⟨-, h'⟩ := List.forall_mem_cons.mp h'
      obtain ⟨h', h''⟩ := List.forall_mem_append.mp h'
      obtain ⟨-, h''⟩ := List.forall_mem_cons.mp h''
      exact ⟨⟨ih h, ih' h', ih'' h'', trivial⟩, rfl⟩
  | catchClause _ _ ih ih' =>
      obtain ⟨h, h'⟩ := List.forall_mem_append.mp h
      refine ⟨?_, clause_shaped (ih h).1 (ih' h')⟩
      rw [(ih' h').1]
      exact (ih h).2
  | funClause _ _ ih ih' =>
      obtain ⟨h, h'⟩ := List.forall_mem_append.mp h
      exact clause_shaped (ih h) (ih' h')
  | namedFunClause _ _ _ ih ih' =>
      obtain ⟨-, h⟩ := List.forall_mem_cons.mp h
      obtain ⟨h, h'⟩ := List.forall_mem_append.mp h
      exact clause_shaped (ih h) (ih' h')
  | ifClause _ _ _ ih ih' =>
      obtain ⟨h, h'⟩ := List.forall_mem_append.mp h
      obtain ⟨hne, hbody⟩ := exprs_shaped (ih' (List.forall_mem_cons.mp h').2)
      obtain ⟨hsome, hg, hgs⟩ := guardSequence_shaped (ih h)
      exact ⟨⟨rfl, hsome⟩, ⟨⟨hg, hne⟩, trivial, hgs, hbody⟩, trivial⟩
  | assocField _ _ _ ih ih' | exactField _ _ _ ih ih' | generator _ _ _ ih ih'
  | binaryGenerator _ _ _ ih ih' =>
      obtain ⟨h, h'⟩ := List.forall_mem_append.mp h
      exact ⟨⟨ih h, ih' (List.forall_mem_cons.mp h').2⟩, trivial⟩
  | recordField _ _ _ ih => exact ⟨ih fun t ht => h t (by simp [ht]), trivial⟩
  | filter _ _ _ ih => exact ⟨ih h, trivial⟩
  | segmentType => exact fun _ hn => by cases hn
  | @segmentTypeArg _ _ n _ t u v _ _ hv =>
      rintro _ ⟨⟩
      rw [← hv]
      exact h v (by simp)
  | signedSegmentValue _ _ ih =>
      exact node_shaped trivial trivial (ih (List.forall_mem_cons.mp h).2)
  | segmentValue _ ih => exact ih h
  | segmentSizeNone => exact trivial
  | segmentSize _ _ ih => exact ih (List.forall_mem_cons.mp h).2
  | segmentTypesNil => exact List.forall_mem_nil _
  | segmentTypes _ _ ih => exact (ih (List.forall_mem_cons.mp h).2).2
  | segment _ _ _ ih ih' ih'' =>
      obtain ⟨h, h'⟩ := List.forall_mem_append.mp h
      obtain ⟨h', h''⟩ := List.forall_mem_append.mp h'
      exact ⟨⟨⟨ih h, ih' h'⟩, trivial⟩, ih'' h''⟩
  | noAfter => exact ⟨trivial, fun _ hx => by cases hx⟩
  | after _ _ _ _ ih ih' =>
      obtain ⟨h, h'⟩ := forall_mem_between h
      obtain ⟨hne, hbody⟩ := exprs_shaped (ih' h')
      refine ⟨⟨ih h, hbody⟩, ?_⟩
      rintro _ ⟨⟩
      exact hne
  | simple hs => exact simple?_shaped _ hs (h _ (by simp))
  | strings => exact node_shaped trivial trivial trivial
  | parenthesized _ _ _ ih =>
      exact ih (forall_mem_between h).1
  | tupleNil | binaryNil => exact node_shaped trivial (by simp [Expr.Worded]) trivial
  | listNil => exact node_shaped (.inr rfl) trivial ⟨trivial, trivial⟩
  | tuple _ _ _ ih =>
      obtain ⟨-, hes⟩ := exprs_shaped (ih (forall_mem_between h).1)
      exact node_shaped trivial trivial hes
  | list _ _ _ ih =>
      obtain ⟨-, hes⟩ := exprs_shaped (ih (forall_mem_between h).1)
      exact node_shaped (.inr rfl) trivial ⟨hes, trivial⟩
  | listTail _ _ _ _ _ ih ih' =>
      obtain ⟨h, h'⟩ := forall_mem_between h
      obtain ⟨hne, hes⟩ := exprs_shaped (ih h)
      exact node_shaped (.inl hne) trivial ⟨hes, ih' (List.forall_mem_append.mp h').1⟩
  | listComp _ _ _ _ _ ih ih' =>
      obtain ⟨h, h'⟩ := forall_mem_between h
      obtain ⟨hne, hqs⟩ := ih' (List.forall_mem_append.mp h').1
      exact node_shaped hne trivial ⟨ih h, Requirement.qualifiers_iff.mpr hqs⟩
  | binaryLiteral _ _ _ ih =>
      obtain ⟨-, hss⟩ := ih (forall_mem_between h).1
      exact node_shaped trivial (fun s hs => (hss s hs).2)
        (Requirement.segments_iff.mpr fun s hs => (hss s hs).1)
  | binaryComp _ _ _ _ _ ih ih' =>
      obtain ⟨h, h'⟩ := forall_mem_between h
      obtain ⟨hne, hqs⟩ := ih' (List.forall_mem_append.mp h').1
      obtain ⟨⟨⟨he, -⟩, -⟩, -⟩ := ih h
      exact node_shaped hne trivial ⟨he, Requirement.qualifiers_iff.mpr hqs⟩
  | map _ _ ih =>
      have hfs := Requirement.mapFields_iff.mpr (ih (List.forall_mem_cons.mp h).2)
      exact node_shaped trivial trivial ⟨trivial, hfs⟩
  | record _ _ _ ih =>
      have hfs := Requirement.recordFields_iff.mpr (ih fun t ht => h t (by simp [ht]))
      exact node_shaped trivial trivial ⟨trivial, hfs⟩
  | recordIndex => exact node_shaped trivial trivial trivial
  | block _ _ _ ih =>
      obtain ⟨hne, hes⟩ := exprs_shaped (ih (forall_mem_between h).1)
      exact node_shaped hne trivial hes
  | caseExpr _ _ _ _ _ ih ih' =>
      obtain ⟨h, h'⟩ := forall_mem_between h
      obtain ⟨hne, hcs⟩ := ih' (List.forall_mem_append.mp h').1
      obtain ⟨hpatterns, hcs⟩ := clauses_shaped hcs
      exact node_shaped ⟨hne, hpatterns⟩ trivial ⟨ih h, hcs⟩
  | ifExpr _ _ _ ih =>
      obtain ⟨hne, hcs⟩ := ih (forall_mem_between h).1
      obtain ⟨hguards, hcs⟩ := clauses_shaped hcs
      exact node_shaped ⟨hne, hguards⟩ trivial hcs
  | receiveAfter _ _ _ ih =>
      obtain ⟨ha, hne⟩ := ih (forall_mem_between h).1
      exact node_shaped ⟨.inr rfl, List.forall_mem_nil _, hne⟩ trivial ⟨trivial, ha⟩
  | receiveExpr _ _ _ _ ih ih' =>
      obtain ⟨-, h⟩ := List.forall_mem_cons.mp h
      obtain ⟨h, h'⟩ := List.forall_mem_append.mp h
      obtain ⟨hsome, hcs⟩ := ih h
      obtain ⟨ha, hne⟩ := ih' (List.forall_mem_append.mp h').1
      obtain ⟨hpatterns, hcs⟩ := clauses_shaped hcs
      exact node_shaped ⟨.inl hsome, hpatterns, hne⟩ trivial ⟨hcs, ha⟩
  | tryExpr _ _ _ _ _ _ hsome ih ih₁ ih₂ ih₃ =>
      obtain ⟨-, h⟩ := List.forall_mem_cons.mp h
      obtain ⟨h, h₁⟩ := List.forall_mem_append.mp h
      obtain ⟨h₁, h₂⟩ := List.forall_mem_append.mp h₁
      obtain ⟨h₂, h₃⟩ := List.forall_mem_append.mp h₂
      obtain ⟨h₃, -⟩ := List.forall_mem_append.mp h₃
      obtain ⟨hne, hes⟩ := exprs_shaped (ih h)
      obtain ⟨hones, hof⟩ := clauses_shaped (ih₁ h₁)
      obtain ⟨hthrees, hcatch⟩ := clauses_shaped (ih₂ h₂)
      exact node_shaped ⟨hne, hones, hthrees, hsome⟩ trivial
        ⟨hes, hof, hcatch, Requirement.exprs_iff.mpr (ih₃ h₃)⟩
  | funExpr _ _ _ ih =>
      obtain ⟨hne, hcs⟩ := ih (forall_mem_between h).1
      exact node_shaped hne trivial (Requirement.clauses_iff.mpr hcs)
  | namedFun _ _ d ih =>
      obtain ⟨-, h⟩ := List.forall_mem_cons.mp h
      obtain ⟨h, -⟩ := List.forall_mem_append.mp h
      obtain ⟨hne, hcs⟩ := ih h
      obtain ⟨t, ht, hname⟩ := d.funName
      have hvar : P (.var _) := hname ▸ h t ht
      exact node_shaped hne hvar (Requirement.clauses_iff.mpr hcs)
  | localReference _ _ _ _ ih =>
      exact node_shaped rfl trivial
        ⟨trivial, node_shaped trivial trivial trivial, ih fun t ht => h t (by simp [ht])⟩
  | remoteReference _ hk hm _ _ _ _ ih ih' =>
      obtain ⟨-, h⟩ := List.forall_mem_cons.mp h
      obtain ⟨hm', h⟩ := List.forall_mem_cons.mp h
      obtain ⟨-, h⟩ := List.forall_mem_cons.mp h
      obtain ⟨h, h'⟩ := List.forall_mem_append.mp h
      exact node_shaped (simple?_isAtom_or_isVar hk hm) trivial
        ⟨simple?_shaped default hm hm', ih h, ih' (List.forall_mem_cons.mp h').2⟩
  | macroName _ hn => exact node_shaped trivial (worded_macroUse hn (h _ (by simp))) trivial
  | macroCall _ hn _ ih =>
      exact node_shaped trivial (worded_macroUse hn (h _ (by simp)))
        (ih fun t ht => h t (by simp [ht]))

/-! ### Expression sequences and forms -/

theorem parseExpressionSequence_shaped {tokens : List (Located Token)} {e : Located Expr}
    (hP : P (.var "_")) (h : parseExpressionSequence tokens = .ok e) (ht : ∀ t ∈ tokens, P t.node) :
    (shapedOf P).expr e := by
  obtain ⟨body, ⟨toks, t, rfl, -, d⟩, rfl⟩ := parseExpressionSequence_iff.mp h
  obtain ⟨hne, hes⟩ := exprs_shaped (d.shaped hP (List.forall_mem_append.mp ht).1)
  exact node_shaped hne trivial hes

theorem FunctionClause.shaped {name : Located String} {c : Located Clause}
    {ts : List (Located Token)} (hP : P (.var "_")) (d : FunctionClause name c ts next)
    (h : ∀ t ∈ ts, P t.node) :
    (shapedOf P).clauses [c] := by
  obtain ⟨-, dps, dc⟩ := d
  obtain ⟨-, h⟩ := List.forall_mem_cons.mp h
  obtain ⟨h, h'⟩ := List.forall_mem_append.mp h
  exact clause_shaped (dps.shaped hP h) (dc.shaped hP h')

theorem FurtherClauses.shaped {first : String × Nat} {cs : List (Located Clause)}
    {ts : List (Located Token)} (hP : P (.var "_")) (d : FurtherClauses first cs ts)
    (h : ∀ t ∈ ts, P t.node) :
    ∀ c ∈ cs, c.node.patterns.length = first.2 ∧ (shapedOf P).clauses [c] := by
  induction d with
  | nil => exact List.forall_mem_nil _
  | cons _ dc hfirst _ ih =>
      obtain ⟨-, h⟩ := List.forall_mem_cons.mp h
      obtain ⟨h, h'⟩ := List.forall_mem_append.mp h
      exact List.forall_mem_cons.mpr ⟨⟨congrArg Prod.snd hfirst, dc.shaped hP h⟩, ih h'⟩

theorem FormDerivation.shaped {f : Located Form} {ts : List (Located Token)} (hP : P (.var "_"))
    (d : FormDerivation f ts) (h : ∀ t ∈ ts, P t.node) : f.node.ShapedOf P := by
  cases d with
  | @function name first cs ts us dfirst dmore =>
      obtain ⟨h, h'⟩ := List.forall_mem_append.mp h
      have hall : ∀ c ∈ first :: cs,
          c.node.patterns.length = first.node.patterns.length ∧ (shapedOf P).clauses [c] :=
        List.forall_mem_cons.mpr ⟨⟨rfl, dfirst.shaped hP h⟩, dmore.shaped hP h'⟩
      exact ⟨⟨List.cons_ne_nil _ _, fun c hc => (hall c hc).1⟩,
        Requirement.clauses_iff.mpr fun c hc => (hall c hc).2⟩
  | tokens _ _ _ hno =>
      obtain ⟨-, h⟩ := List.forall_mem_cons.mp h
      obtain ⟨-, h⟩ := List.forall_mem_cons.mp h
      intro t ht
      obtain ⟨u, hu, rfl⟩ := List.mem_map.mp ht
      exact ⟨h u hu, hno u hu⟩
  | plain | noArgs => exact trivial
  | args _ _ _ _ d _ =>
      exact (exprs_shaped (d.shaped hP fun t ht => h t (by simp [ht]))).2

theorem parseForms_shaped {tokens : List (Located Token)} {fs : List (Located Form)}
    (hP : P (.var "_")) (h : parseForms tokens = .ok fs) (ht : ∀ t ∈ tokens, P t.node) :
    ∀ f ∈ fs, f.node.ShapedOf P := by
  obtain ⟨parts, hcut, hparts⟩ := parseForms_iff.mp h
  rw [← cutForms_flatten hcut] at ht
  clear h hcut
  induction hparts with
  | nil => exact List.forall_mem_nil _
  | cons hf _ ih =>
      rw [List.flatten_cons] at ht
      obtain ⟨ht, ht'⟩ := List.forall_mem_append.mp ht
      obtain ⟨toks, t, rfl, -, d⟩ := hf
      exact List.forall_mem_cons.mpr ⟨d.shaped hP (List.forall_mem_append.mp ht).1, ih ht'⟩

end

/-- Whatever the grammar reads from any tokens is well shaped: the functions, the clauses of each of
them and the nodes at every depth. -/
theorem parsed_shaped :
    (∀ tokens fs, parseForms tokens = .ok fs → ∀ f ∈ fs, f.node.Shaped) ∧
      (∀ tokens e, parseExpressionSequence tokens = .ok e → shaped.expr e) := by
  refine ⟨fun tokens fs h f hf => ?_, fun tokens e h => ?_⟩
  · exact (parseForms_shaped (P := fun _ => True) trivial h (fun _ _ => trivial) f hf).shaped
  · exact shaped_of_shapedOf e (parseExpressionSequence_shaped (P := fun _ => True) trivial h
      fun _ _ => trivial)

/-- The forms in `f(X) -> X.` and the expressions in `[X].` -/
theorem parsed_shaped_identity :
    (∃ fs,
      parseForms [⟨.atom "f", ⟨0, 1, 1⟩⟩, ⟨.symbol .leftParen, ⟨1, 2, 1⟩⟩, ⟨.var "X", ⟨2, 3, 1⟩⟩,
        ⟨.symbol .rightParen, ⟨3, 4, 1⟩⟩, ⟨.symbol .arrow, ⟨5, 7, 1⟩⟩, ⟨.var "X", ⟨8, 9, 1⟩⟩,
        ⟨.terminator, ⟨9, 10, 1⟩⟩] = .ok fs ∧ ∀ f ∈ fs, f.node.Shaped) ∧
    ∃ e,
      parseExpressionSequence [⟨.symbol .leftBracket, ⟨0, 1, 1⟩⟩, ⟨.var "X", ⟨1, 2, 1⟩⟩,
        ⟨.symbol .rightBracket, ⟨2, 3, 1⟩⟩, ⟨.terminator, ⟨3, 4, 1⟩⟩] = .ok e ∧ shaped.expr e :=
  ⟨Exists.imp (fun fs h => ⟨h, parsed_shaped.1 _ fs h⟩) ⟨_, rfl⟩,
    Exists.imp (fun e h => ⟨h, parsed_shaped.2 _ e h⟩) ⟨_, rfl⟩⟩

end Grammar

end ErlangFragment
