import ErlangFragment.Proofs.Grammar.Segments
import ErlangFragment.Proofs.Grammar.Spans
import ErlangFragment.Proofs.Token.Denotation

/-! Where errors are. The span of an error marks a part of the text, unless the error is at the end
of the input: that place is said to be on the line on which the last token starts. -/

namespace ErlangFragment

open ErlangFragment.Span ErlangFragment.Reader

/-- Something was asked for where the input ends. -/
def GrammarFault.atEnd : GrammarFault → Bool
  | expected _ none | missingTerminator => true
  | _ => false

namespace Parser

variable {α β : Type} {text : List Char} {line : Nat}

/-- The error marks a part of the text, or it is behind the last token. -/
def Placed (text : List Char) (line : Nat) (c : Cursor) (e : GrammarError) : Prop :=
  e.span.Marks text line ∨ (e.fault.atEnd = true ∧ e.span = (lastSpan c.previous c.rest).endpoint)

/-- From tokens that stand in the text the parser reads some of them, or its error is placed. -/
def Places (text : List Char) (line : Nat) (p : Parser α) : Prop :=
  ∀ m c low high, Ordered text line low c.rest high →
    (∀ a c', p m c = .ok (a, c') → ∃ toks, c.Passes toks c') ∧
      ∀ e, p m c = .error e → Placed text line c e

/-- What the parser reads from tokens that stand in the text. -/
def Yields (text : List Char) (line : Nat) (p : Parser α) (a : α) : Prop :=
  ∃ m c c' low high, Ordered text line low c.rest high ∧ p m c = .ok (a, c')

/-! ### Laws -/

/-- An error at the end is behind the same last token, however far the cursor is. -/
theorem Placed.of_passes {c c' : Cursor} {toks : List (Located Token)} {e : GrammarError}
    (h : c.Passes toks c') (he : Placed text line c' e) : Placed text line c e := by
  refine he.imp_right fun ⟨hend, hspan⟩ => ⟨hend, ?_⟩
  rw [hspan, h.previous, h.rest, lastSpan_append]

namespace Places

theorem pure (a : α) : Places text line (return a : Parser α) := by
  refine fun m c low high _ => ⟨fun b c' h => ?_, fun e h => ?_⟩
  · obtain ⟨-, rfl⟩ := pure_eq_ok.mp h
    exact ⟨[], .refl _⟩
  · cases h

/-- Errors of the second part are where they should be if its argument is one that the first part
yields. -/
theorem bind {p : Parser α} {f : α → Parser β} (h : Places text line p)
    (hf : ∀ a, Yields text line p a → Places text line (f a)) : Places text line (p >>= f) := by
  intro m c low high ht
  obtain ⟨hok, herror⟩ := h m c low high ht
  cases hp : p m c with
  | error e =>
      rw [bind_of_error hp]
      refine ⟨fun _ _ h => (by cases h), ?_⟩
      rintro _ ⟨⟩
      exact herror e hp
  | ok r =>
      obtain ⟨a, c₁⟩ := r
      rw [bind_of_ok hp]
      obtain ⟨toks, hpass⟩ := hok a c₁ hp
      rw [hpass.rest] at ht
      obtain ⟨hok', herror'⟩ :=
        hf a ⟨m, c, c₁, low, high, by rw [hpass.rest]; exact ht, hp⟩ m c₁ low high ht.right
      refine ⟨fun b c' hb => ?_, fun e he => (herror' e he).of_passes hpass⟩
      obtain ⟨us, hus⟩ := hok' b c' hb
      exact ⟨toks ++ us, hpass.trans hus⟩

/-- What is found instead of the expected is at the next token, or at the end. -/
theorem unexpected (what : Expectation) : Places text line (unexpected what : Parser α) := by
  refine fun m c low high ht => ⟨fun _ _ h => absurd h unexpected_ne_ok, ?_⟩
  rintro _ ⟨⟩
  obtain ⟨previous, _ | ⟨t, ts⟩⟩ := c
  · exact .inr ⟨rfl, rfl⟩
  · exact .inl ht.1

/-- A fault of its own is at a span of the text. -/
theorem fail {s : Span} (hs : s.Marks text line) (fault : GrammarFault) :
    Places text line (fail fault s : Parser α) := by
  refine fun m c low high _ => ⟨fun _ _ h => absurd h fail_ne_ok, ?_⟩
  rintro _ ⟨⟩
  exact .inl hs

/-- What reads nothing may go on with what the cursor shows. -/
theorem peek? {f : Option Token → Parser α} (h : ∀ t, Places text line (f t)) :
    Places text line (peek? >>= f) := fun m c => h _ m c

theorem peekTwo? {f : Option Token × Option Token → Parser α} (h : ∀ t, Places text line (f t)) :
    Places text line (peekTwo? >>= f) := fun m c => h _ m c

theorem colonSeparates {f : Bool → Parser α} (h : ∀ b, Places text line (f b)) :
    Places text line (colonSeparates >>= f) := fun m c => h _ m c

theorem position {f : Span → Parser α} (h : ∀ s, Places text line (f s)) :
    Places text line (position >>= f) := fun m c => h _ m c

theorem previous {f : Span → Parser α} (h : ∀ s, Places text line (f s)) :
    Places text line (previous >>= f) := fun m c => h _ m c

/-- The span of the next token marks the text. -/
theorem next? {f : Option (Located Token) → Parser α} (hnone : Places text line (f none))
    (hsome : ∀ t s, s.Marks text line → Places text line (f (some ⟨t, s⟩))) :
    Places text line (next? >>= f) := by
  intro m c low high ht
  rw [next?_bind]
  obtain ⟨s, _ | ⟨⟨t, span⟩, ts⟩⟩ := c
  · exact hnone m _ low high ht
  · exact hsome t span ht.1 m _ low high ht

theorem advance : Places text line advance := by
  refine fun m c low high _ => ⟨fun a c' h => ?_, fun e h => ?_⟩
  · obtain ⟨s, _ | ⟨t, ts⟩⟩ := c <;> cases h
    · exact ⟨[], .refl _⟩
    · exact ⟨[t], rfl, rfl⟩
  · obtain ⟨s, _ | ⟨t, ts⟩⟩ := c <;> cases h

theorem inContext {p : Parser α} (h : Places text line p) (context : GrammarContext) :
    Places text line (inContext context p) := fun _ c => h _ c

theorem withColonSeparating {p : Parser α} (h : Places text line p) (b : Bool) :
    Places text line (withColonSeparating b p) := fun _ c => h _ c

theorem bounded {p : Nat → Parser α} (h : ∀ n, Places text line (p n)) :
    Places text line (bounded p) := fun m c => h _ m c

theorem ite {p q : Parser α} {b : Prop} [Decidable b] (h : Places text line p)
    (h' : Places text line q) :
    Places text line (if b then p else q) := by
  split
  · exact h
  · exact h'

theorem check (t : Token) : Places text line (check t) := .peek? fun _ => .pure _

theorem eat (t : Token) : Places text line (eat t) :=
  .bind (.check t) fun _ _ => .ite (.bind .advance fun _ _ => .pure _) (.pure _)

/-- Both branches, whichever token is next. -/
theorem ifEat {t : Token} {p q : Parser α} (h : Places text line p) (h' : Places text line q) :
    Places text line (Reader.eat t >>= fun b => if b = true then p else q) :=
  .bind (.eat t) fun _ _ => .ite h h'

theorem ifCheck {t : Token} {p q : Parser α} (h : Places text line p) (h' : Places text line q) :
    Places text line (Reader.check t >>= fun b => if b = true then p else q) :=
  .bind (.check t) fun _ _ => .ite h h'

theorem expect (t : Token) : Places text line (expect t) := by
  refine .ifEat (fun m c low high _ => ⟨fun a c' h => ?_, fun e h => (by cases h)⟩) (.unexpected _)
  cases h
  exact ⟨[], .refl _⟩

theorem expectAtom : Places text line expectAtom := by
  refine .next? (.unexpected _) fun t s _ => ?_
  cases t with
  | atom name => exact .bind .advance fun _ _ => .pure _
  | _ => exact .unexpected _

theorem expectEnd : Places text line expectEnd :=
  .next? (.pure _) fun _ _ hs => .fail hs _

theorem more {p : Parser α} (h : Places text line p) (s : Token) (n : Nat) :
    Places text line (more s p n) := by
  induction n with
  | zero => exact .pure _
  | succ n ih => exact .ifEat (.bind h fun _ _ => .bind ih fun _ _ => .pure _) (.pure _)

theorem separated {p : Parser α} (h : Places text line p) (s : Token) :
    Places text line (separated s p) :=
  .bind h fun _ _ => .bind (.bounded (h.more s)) fun _ _ => .pure _

theorem spanned {p : Parser α} (h : Places text line p) : Places text line (spanned p) :=
  .position fun _ => .bind h fun _ _ => .previous fun _ => .pure _

end Places

end Parser

namespace Grammar

open ErlangFragment.Parser ErlangFragment.Reader

section

variable {text : List Char} {line : Nat} {rules : Rules Parser}
  (hr : ∀ nt, Places text line (rules nt))

include hr

theorem exprs_places : Places text line (exprs rules) := (hr .expression).separated _

omit hr in
/-- Something between two brackets, or nothing. -/
theorem bracketed_places {α : Type} {p : Parser (List α)} (h : Places text line p) (l r : Token) :
    Places text line (do
      let _ ← expect l
      if ← eat r then return []
      let as ← p
      let _ ← expect r
      return as : Parser (List α)) :=
  .bind (.expect _) fun _ _ => .ifEat (.pure _) <|
    .bind h fun _ _ => .bind (.expect _) fun _ _ => .pure _

theorem argPatterns_places : Places text line (argPatterns rules) :=
  bracketed_places ((exprs_places hr).inContext _) _ _

theorem callArgs_places : Places text line (callArgs rules) :=
  bracketed_places ((exprs_places hr).withColonSeparating _) _ _

omit hr in
theorem braced_places {α : Type} {p : Parser α} (h : Places text line p) :
    Places text line (braced p) :=
  bracketed_places (h.separated _) _ _

theorem guardSequence_places : Places text line (guardSequence rules) :=
  ((exprs_places hr).separated _).inContext _

theorem guards_places : Places text line (guards rules) :=
  .ifEat (guardSequence_places hr) (.pure _)

theorem clauseRest_places (patterns : List (Located Expr)) :
    Places text line (clauseRest rules patterns) :=
  .bind (guards_places hr) fun _ _ => .bind (.expect _) fun _ _ =>
    .bind (exprs_places hr) fun _ _ => .pure _

theorem caseClause_places : Places text line (caseClause rules) :=
  .inContext (.spanned <| .bind (hr .expression) fun _ _ => clauseRest_places hr _) _

theorem caseClauses_places : Places text line (caseClauses rules) :=
  (caseClause_places hr).separated _

theorem catchPatterns_places : Places text line (catchPatterns rules) :=
  .bind (hr .expression) fun _ _ => .ifEat
    (.bind (hr .expression) fun _ _ => .ifEat (.bind (hr .expression) fun _ _ => .pure _) (.pure _))
    (.pure _)

theorem catchClause_places : Places text line (catchClause rules) :=
  .inContext (.spanned <| .bind ((catchPatterns_places hr).withColonSeparating _) fun _ _ =>
    clauseRest_places hr _) _

theorem catchClauses_places : Places text line (catchClauses rules) :=
  (catchClause_places hr).separated _

omit hr in
/-- The name that a clause should repeat is where the wrong one stands. -/
theorem repeatedName_places (name : Option String) : Places text line (repeatedName name) := by
  cases name with
  | none => exact .pure _
  | some v => exact .peek? fun _ => .ite .advance (.unexpected _)

theorem funClause_places (name : Option String) : Places text line (funClause rules name) :=
  .inContext (.spanned <| .bind (repeatedName_places name) fun _ _ =>
    .bind (argPatterns_places hr) fun _ _ => clauseRest_places hr _) _

theorem funClauses_places (name : Option String) : Places text line (funClauses rules name) :=
  (funClause_places hr name).separated _

theorem ifClause_places : Places text line (ifClause rules) :=
  .inContext (.spanned <| .bind (guardSequence_places hr) fun _ _ => .bind (.expect _) fun _ _ =>
    .bind (exprs_places hr) fun _ _ => .pure _) _

omit hr in
theorem fieldOperator_places : Places text line fieldOperator :=
  .ifEat (.pure _) (.ifEat (.pure _) (.unexpected _))

theorem mapField_places : Places text line (mapField rules) :=
  .bind (hr .expression) fun _ _ => .bind fieldOperator_places fun _ _ =>
    .bind (hr .expression) fun _ _ => .pure _

omit hr in
theorem fieldName_places : Places text line fieldName := by
  refine .next? (.unexpected _) fun t s _ => ?_
  cases t with
  | atom name | var name => exact .bind .advance fun _ _ => .pure _
  | _ => exact .unexpected _

theorem recordField_places : Places text line (recordField rules) :=
  .bind fieldName_places fun _ _ => .bind (.expect _) fun _ _ =>
    .bind (hr .expression) fun _ _ => .pure _

/-- The errors of what stands behind a hash. -/
theorem hash_places (base : Option (Located Expr)) : Places text line (hash rules base) := by
  refine .bind (.expect _) fun _ _ => .ifCheck ?_ (.bind .expectAtom fun _ _ => .ifEat ?_ ?_)
  · exact .bind ((braced_places (mapField_places hr)).inContext _) fun _ _ =>
      .previous fun _ => .pure _
  · exact .bind .expectAtom fun _ _ => by cases base <;> exact .pure _
  · exact .bind ((braced_places (recordField_places hr)).inContext _) fun _ _ =>
      .previous fun _ => .pure _

theorem qualifier_places : Places text line (qualifier rules) :=
  .bind (hr .expression) fun _ _ => .ifEat (.bind (hr .expression) fun _ _ => .pure _) <|
    .ifEat (.bind (hr .expression) fun _ _ => .pure _) (.pure _)

theorem qualifiers_places : Places text line (qualifiers rules) :=
  ((qualifier_places hr).separated _).inContext _

theorem listBody_places : Places text line (listBody rules) :=
  .ifCheck (.pure _) <| .bind (hr .expression) fun _ _ => .ifEat
    (.bind (qualifiers_places hr) fun _ _ => .pure _) <|
    .bind (.bounded ((hr .expression).more _)) fun _ _ =>
      .ifEat (.bind (hr .expression) fun _ _ => .pure _) (.pure _)

omit hr in
theorem segmentType_places : Places text line segmentType := by
  refine .bind .expectAtom fun _ _ => .ifEat (.peek? fun t => ?_) (.pure _)
  split
  · exact .bind .advance fun _ _ => .pure _
  · exact .unexpected _

theorem segmentValue_places : Places text line (segmentValue rules) := by
  refine .peek? fun t => ?_
  cases t.bind UnaryOp.ofToken? with
  | none => exact hr .primary
  | some op =>
      exact .position fun _ => .bind .advance fun _ _ => .bind (hr .primary) fun _ _ => .pure _

theorem segmentSize_places : Places text line (segmentSize rules) :=
  .ifEat (.bind (hr .primary) fun _ _ => .pure _) (.pure _)

omit hr in
theorem segmentTypes_places : Places text line segmentTypes :=
  .ifEat (segmentType_places.separated _) (.pure _)

theorem segment_places : Places text line (segment rules) :=
  .inContext (.bind (segmentValue_places hr) fun _ _ => .bind (segmentSize_places hr) fun _ _ =>
    .bind segmentTypes_places fun _ _ => .pure _) _

omit hr in
/-- The value of a segment that is read marks its text. -/
theorem marks_of_yields_segment (hs : ∀ nt, Sound (.rule nt) (rules nt)) {s : Segment}
    (h : Yields text line (segment rules) s) : s.value.span.Marks text line := by
  obtain ⟨value, _, _⟩ := s
  obtain ⟨m, c, c', low, high, ht, h⟩ := h
  obtain ⟨toks, hp, d⟩ := segment_sound hs h
  rw [hp.rest] at ht
  obtain ⟨⟨hv, -⟩, -⟩ := d.placed ht.left
  exact hv.span.1

theorem binaryBody_places (hs : ∀ nt, Sound (.rule nt) (rules nt)) :
    Places text line (binaryBody rules) := by
  refine .ifCheck (.pure _) (.bind (segment_places hr) fun s h => .ifCheck (.ite ?_ ?_) ?_)
  · exact .fail (marks_of_yields_segment hs h) _
  · exact .bind .advance fun _ _ => .bind (qualifiers_places hr) fun _ _ => .pure _
  · exact .bind (.bounded ((segment_places hr).more _)) fun _ _ => .pure _

omit hr in
theorem enclosed_places {p : Parser Expr} (h : Places text line p) (opening closing : Token) :
    Places text line (enclosed opening closing p) :=
  .bind (.expect _) fun _ _ => .bind h fun _ _ => .bind (.expect _) fun _ _ => .pure _

theorem tuple_places : Places text line (tuple rules) :=
  enclosed_places (.ifCheck (.pure _) (.bind (exprs_places hr) fun _ _ => .pure _)) _ _

theorem block_places : Places text line (block rules) :=
  enclosed_places (.bind ((exprs_places hr).inContext _) fun _ _ => .pure _) _ _

theorem caseExpr_places : Places text line (caseExpr rules) :=
  enclosed_places (.bind (hr .expression) fun _ _ => .bind (.expect _) fun _ _ =>
    .bind (caseClauses_places hr) fun _ _ => .pure _) _ _

theorem ifExpr_places : Places text line (ifExpr rules) :=
  enclosed_places (.bind ((ifClause_places hr).separated _) fun _ _ => .pure _) _ _

theorem after?_places : Places text line (after? rules) :=
  .ifEat (.bind (hr .expression) fun _ _ => .bind (.expect _) fun _ _ =>
    .bind (exprs_places hr) fun _ _ => .pure _) (.pure _)

theorem receiveClauses_places : Places text line (receiveClauses rules) :=
  .ifCheck (.pure _) (caseClauses_places hr)

theorem receiveExpr_places : Places text line (receiveExpr rules) :=
  enclosed_places (.bind (receiveClauses_places hr) fun _ _ => .bind (after?_places hr) fun _ _ =>
    .pure _) _ _

omit hr in
theorem part_places {α : Type} {p : Parser (List α)} (h : Places text line p) (word : Keyword) :
    Places text line (part word p) := .ifEat h (.pure _)

theorem tryExpr_places : Places text line (tryExpr rules) :=
  enclosed_places (.bind (exprs_places hr) fun _ _ =>
    .bind (part_places (caseClauses_places hr) _) fun _ _ =>
    .bind (part_places (catchClauses_places hr) _) fun _ _ =>
      .bind (part_places (exprs_places hr) _) fun _ _ =>
      .ite (.unexpected _) (.pure _)) _ _

theorem funBody_places (s : Span) (name : Option String) :
    Places text line (funBody rules s name) :=
  .bind (funClauses_places hr name) fun _ _ => .bind (.expect _) fun _ _ => .pure _

theorem funArity_places (s : Span) (module : Option (Located Expr)) (function : Located Expr) :
    Places text line (funArity rules s module function) :=
  .bind (.expect _) fun _ _ => .bind (hr .primary) fun _ _ => .pure _

theorem localReference_places (s : Span) : Places text line (localReference rules s) :=
  .bind (hr .primary) fun _ _ => funArity_places hr _ _ _

theorem remoteReference_places (s : Span) : Places text line (remoteReference rules s) :=
  .bind (hr .primary) fun _ _ => .bind (.expect _) fun _ _ => .bind (hr .primary) fun _ _ =>
    funArity_places hr _ _ _

theorem funExpr_places : Places text line (funExpr rules) := by
  refine .bind (.expect _) fun s _ => .peekTwo? fun k => ?_
  rcases funKind? k with _ | name | _ | _
  · exact .unexpected _
  · exact funBody_places hr s name
  · exact localReference_places hr s
  · exact remoteReference_places hr s

omit hr in
theorem macroName_places : Places text line macroName := by
  refine .peek? fun t => ?_
  split
  · exact .bind .advance fun _ _ => .pure _
  · exact .bind .advance fun _ _ => .pure _
  · exact .unexpected _

theorem macroUse_places : Places text line (macroUse rules) :=
  .bind (.expect _) fun _ _ => .bind macroName_places fun _ _ => .ifCheck
    (.bind (callArgs_places hr) fun _ _ => .previous fun _ => .pure _) (.previous fun _ => .pure _)

omit hr in
theorem stringTexts_places (n : Nat) : Places text line (stringTexts n) := by
  induction n with
  | zero => exact .pure _
  | succ n ih =>
      refine .peek? fun t => ?_
      split
      · exact .bind .advance fun _ _ => .bind ih fun _ _ => .pure _
      · exact .pure _

omit hr in
theorem strings_places : Places text line strings :=
  .spanned (.bind (.bounded stringTexts_places) fun _ _ => .pure _)

theorem parenthesized_places : Places text line (parenthesized rules) :=
  .bind (.expect _) fun _ _ => .bind ((hr .expression).withColonSeparating _) fun _ _ =>
    .bind (.expect _) fun _ _ => .pure _

/-- The errors of the rule of a first token. -/
theorem compound_places (hs : ∀ nt, Sound (.rule nt) (rules nt)) (t : Token) :
    Places text line (compound rules t) := by
  unfold compound
  split
  · exact strings_places
  · exact parenthesized_places hr
  · exact tuple_places hr
  · exact enclosed_places (listBody_places hr) _ _
  · exact enclosed_places (binaryBody_places hr hs) _ _
  · exact hash_places hr none
  · exact block_places hr
  · exact caseExpr_places hr
  · exact ifExpr_places hr
  · exact receiveExpr_places hr
  · exact tryExpr_places hr
  · exact funExpr_places hr
  · exact macroUse_places hr
  · exact .unexpected _

/-- The errors of a primary, with those of what it is made up of. -/
theorem primary_places (hs : ∀ nt, Sound (.rule nt) (rules nt)) :
    Places text line (primary rules) := by
  refine .next? (.unexpected _) fun t s _ => ?_
  dsimp only
  cases simple? t with
  | none => exact compound_places hr hs t
  | some e => exact .bind .advance fun _ _ => .pure _

theorem remoteCall_places (module : Located Expr) : Places text line (remoteCall rules module) :=
  .bind .advance fun _ _ => .bind (hr .primary) fun _ _ => .ifCheck
    (.bind (callArgs_places hr) fun _ _ => .previous fun _ => .pure _) (.unexpected _)

theorem postfixes_places (n : Nat) (e : Located Expr) : Places text line (postfixes rules n e) := by
  induction n generalizing e with
  | zero => exact .pure _
  | succ n ih =>
      refine .peek? fun t => ?_
      split
      · exact .bind (callArgs_places hr) fun _ _ => .previous fun _ => ih _
      · exact .colonSeparates fun _ =>
          .ite (.pure _) (.bind (remoteCall_places hr e) fun _ _ => ih _)
      · exact .bind (hash_places hr _) fun _ _ => ih _
      · exact .pure _

theorem unary_places (hs : ∀ nt, Sound (.rule nt) (rules nt)) : Places text line (unary rules) := by
  refine .peek? fun t => ?_
  cases t.bind UnaryOp.ofToken? with
  | none => exact .bind (primary_places hr hs) fun e _ => .bounded fun n => postfixes_places hr n e
  | some op =>
      exact .position fun _ => .bind .advance fun _ _ => .bind (hr .unary) fun _ _ => .pure _

/-- A comparison that is chained is named by the span of its operator. -/
theorem operations_places (minimum n : Nat) (e : Located Expr) (comparison : Bool) :
    Places text line (operations rules minimum n e comparison) := by
  induction n generalizing e comparison with
  | zero => exact .pure _
  | succ n ih =>
      refine .next? (.pure _) fun t s hmarks => ?_
      dsimp only
      cases connective? t with
      | none => exact .pure _
      | some op =>
          exact .ite (.pure _) (.ite (.fail hmarks _)
            (.bind .advance fun _ _ => .bind (hr _) fun _ _ => ih _ _))

theorem binary_places (hs : ∀ nt, Sound (.rule nt) (rules nt)) (minimum : Nat) :
    Places text line (binary rules minimum) :=
  .bind (unary_places hr hs) fun e _ => .bounded fun n => operations_places hr minimum n e false

theorem expression_places (hs : ∀ nt, Sound (.rule nt) (rules nt)) :
    Places text line (expression rules) :=
  .ifCheck (.bind (.expect _) fun _ _ => .bind (hr .expression) fun _ _ => .pure _)
    (binary_places hr hs 0)

/-- Every rule places its errors, if the rules that it calls do and read what is derived. -/
theorem step_places (hs : ∀ nt, Sound (.rule nt) (rules nt)) (nt : Nonterminal) :
    Places text line (step rules nt) := by
  cases nt with
  | expression => exact expression_places hr hs
  | binary minimum => exact binary_places hr hs minimum
  | unary => exact unary_places hr hs
  | primary => exact primary_places hr hs

end

section

variable {text : List Char} {line : Nat}

/-- Whatever the number of calls is, errors are where they should be. -/
theorem within_places (n : Nat) (nt : Nonterminal) : Places text line (within n nt) := by
  induction n generalizing nt with
  | zero => exact .unexpected _
  | succ n ih => exact step_places ih (within_sound n) nt

/-! ### Forms -/

variable {rules : Rules Parser} (hr : ∀ nt, Places text line (rules nt))

include hr

theorem functionClause_places : Places text line (functionClause rules) :=
  .bind .expectAtom fun _ _ => .bind (argPatterns_places hr) fun _ _ =>
    .bind (clauseRest_places hr _) fun _ _ => .previous fun _ => .pure _

omit hr in
/-- The name of a clause that is read marks the text. -/
theorem marks_of_yields_functionClause {name : Located String} {c : Located Clause}
    (h : Yields text line (functionClause rules) (name, c)) : name.span.Marks text line := by
  obtain ⟨m, cur, cur', low, high, ht, h⟩ := h
  simp only [functionClause, bind_eq_ok, previous_bind, pure_eq_ok] at h
  obtain ⟨n, c₁, hn, _, _, -, _, _, -, hres, -⟩ := h
  obtain ⟨u, -, hs, hp⟩ := expectAtom_eq_ok.mp hn
  obtain ⟨rfl, -⟩ := Prod.mk.inj hres
  rw [hp.rest] at ht
  rw [hs]
  exact ht.1

theorem sameFunctionClause_places (first : String × Nat) :
    Places text line (sameFunctionClause rules first) := by
  refine .bind (functionClause_places hr) fun ⟨name, clause⟩ h => ?_
  exact .ite (.bind (.fail (marks_of_yields_functionClause h) _) fun _ _ => .pure _) (.pure _)

theorem functionForm_places : Places text line (functionForm rules) :=
  .bind (functionClause_places hr) fun _ _ =>
    .bind (.bounded ((sameFunctionClause_places hr _).more _)) fun _ _ => .previous fun _ => .pure _

omit hr in
theorem attributeName_places : Places text line attributeName := by
  refine .next? (.unexpected _) fun t s _ => ?_
  cases t with
  | atom name => exact .bind .advance fun _ _ => .pure _
  | _ => exact .ite (.bind .advance fun _ _ => .pure _) (.unexpected _)

omit hr in
theorem rawTokens_places : Places text line rawTokens := by
  refine fun m c low high _ => ⟨fun a c' h => ?_, fun e h => (by cases h)⟩
  obtain ⟨toks, hp, -⟩ := rawTokens_eq_ok.mp h
  exact ⟨toks, hp⟩

theorem attributeArgs_places : Places text line (attributeArgs rules) :=
  .ifEat (.ifEat (.pure _) (.bind (exprs_places hr) fun _ _ => .bind (.expect _) fun _ _ =>
    .pure _)) (.pure _)

theorem attributeValue_places (name : String) : Places text line (attributeValue rules name) :=
  .ite (.bind rawTokens_places fun _ _ => .pure _)
    (.bind (attributeArgs_places hr) fun _ _ => .pure _)

theorem attributeForm_places : Places text line (attributeForm rules) :=
  .bind (.expect _) fun _ _ => .bind attributeName_places fun _ _ =>
    .bind (attributeValue_places hr _) fun _ _ => .previous fun _ => .pure _

end

section

variable {text : List Char} {line : Nat}

theorem declaration_places : Places text line declaration :=
  .ifCheck (.inContext (.bounded fun n => attributeForm_places (within_places n)) _)
    (.inContext (.bounded fun n => functionForm_places (within_places n)) _)

theorem form_places : Places text line form :=
  .bind declaration_places fun _ _ => .bind (.expect _) fun _ _ =>
    .bind .expectEnd fun _ _ => .pure _

theorem expressionSequence_places : Places text line expressionSequence :=
  .inContext (.position fun _ => .bind (.bounded fun n => exprs_places (within_places n)) fun _ _ =>
    .bind (.expect _) fun _ _ => .bind .expectEnd fun _ _ => .pure _) _

end

/-- The error of a run is that of the parser from the start. -/
theorem run_error {α : Type} {p : Parser α} {tokens : List (Located Token)} {e : GrammarError}
    (h : p.run tokens = .error e) : p ⟨.expression, false⟩ ⟨.nowhere, tokens⟩ = .error e := by
  rw [run] at h
  cases hp : p ⟨.expression, false⟩ ⟨.nowhere, tokens⟩ with
  | error e' =>
      rw [hp] at h
      cases h
      rfl
  | ok r => simp [hp, Except.map] at h

/-- The first part that is refused makes the whole refused. -/
theorem mapM_eq_error {ε α β : Type} {f : α → Except ε β} {as : List α} {e : ε}
    (h : as.mapM f = .error e) : ∃ a ∈ as, f a = .error e := by
  induction as with
  | nil => cases h
  | cons a as ih =>
      rw [List.mapM_cons] at h
      cases ha : f a with
      | error e' =>
          obtain rfl : e' = e := by simpa [ha, bind, Except.bind] using h
          exact ⟨a, List.mem_cons_self, ha⟩
      | ok b =>
          cases hrest : as.mapM f with
          | error e' =>
              obtain rfl : e' = e := by simpa [ha, hrest, bind, Except.bind] using h
              obtain ⟨a', hmem, ha'⟩ := ih hrest
              exact ⟨a', List.mem_cons_of_mem _ hmem, ha'⟩
          | ok bs => simp [ha, hrest, bind, Except.bind, pure, Except.pure] at h

/-- What stands behind the last terminator lacks one, and the error is at its end. -/
theorem cutForms_eq_error {tokens : List (Located Token)} {e : GrammarError}
    (h : cutForms tokens = .error e) :
    ∃ before last, tokens = before ++ [last] ∧
      e = ⟨.declaration, .missingTerminator, last.span.endpoint⟩ := by
  have hflatten := cutFrom_flatten 0 [] tokens
  rw [cutForms] at h
  rcases List.eq_nil_or_concat (cutFrom 0 [] tokens).2 with hrest | ⟨rest, last, hrest⟩
  · simp [hrest] at h
  · refine ⟨(cutFrom 0 [] tokens).1.flatten ++ rest, last, ?_, ?_⟩
    · rw [hrest] at hflatten
      simpa using hflatten.symm
    · simpa [hrest] using h.symm

/-- Forms are refused because there is something behind the last terminator, or because of one of
them. -/
theorem parseForms_eq_error {tokens : List (Located Token)} {e : GrammarError}
    (h : parseForms tokens = .error e) :
    (∃ before last, tokens = before ++ [last] ∧
        e = ⟨.declaration, .missingTerminator, last.span.endpoint⟩) ∨
      ∃ before q t after, tokens = before ++ (q ++ [t]) ++ after ∧ t.node = .terminator ∧
        form.run (q ++ [t]) = .error e := by
  rw [parseForms] at h
  cases hcut : cutForms tokens with
  | error e' =>
      obtain rfl : e' = e := by simpa [hcut, bind, Except.bind] using h
      exact .inl (cutForms_eq_error hcut)
  | ok parts =>
      rw [hcut] at h
      obtain ⟨p, hp, he⟩ := mapM_eq_error h
      obtain ⟨q, t, rfl, hterm, -⟩ := (cutForms_segments hcut).of_mem p hp
      obtain ⟨before, after, rfl⟩ := List.append_of_mem hp
      have hflatten := cutForms_flatten hcut
      rw [List.flatten_append, List.flatten_cons, ← List.append_assoc] at hflatten
      exact .inr ⟨before.flatten, q, t, after.flatten, hflatten.symm, hterm, he⟩

end Grammar

/-! ### Lines -/

namespace Span

variable {text : List Char} {line : Nat} {s : Span}

/-- The span begins on the line that it names. -/
def OnLine (text : List Char) (line : Nat) (s : Span) : Prop :=
  ∃ before after, text = before ++ after ∧ s.start = byteLength before ∧
    s.line = advanceLine line (newlines before)

/-- The part of the text that the span marks has a line feed in it. -/
def HasLineFeed (text : List Char) (s : Span) : Prop :=
  ∃ before part after, text = before ++ part ++ after ∧ s.start = byteLength before ∧
    s.stop = byteLength (before ++ part) ∧ '\n' ∈ part

/-- What marks the text is on the line that it names. -/
theorem Marks.onLine (h : s.Marks text line) : s.OnLine text line := by
  obtain ⟨before, part, after, htext, hstart, -, hline⟩ := h
  exact ⟨before, part ++ after, by rw [htext, List.append_assoc], hstart, hline⟩

/-- What has no line feed in it ends on the line on which it begins. -/
theorem Marks.endpoint (h : s.Marks text line) :
    s.endpoint.OnLine text line ∨ s.HasLineFeed text := by
  obtain ⟨before, part, after, htext, hstart, hstop, hline⟩ := h
  by_cases hfeed : '\n' ∈ part
  · exact .inr ⟨before, part, after, htext, hstart, hstop, hfeed⟩
  · refine .inl ⟨before ++ part, after, htext, hstop, ?_⟩
    rw [newlines_append, show newlines part = 0 from List.count_eq_zero.mpr hfeed]
    exact hline

end Span

open Lexer

variable {text : List Char} {line low high : Nat}

/-- A terminator is one character, so that its end is on its line. -/
theorem Lexer.IsLexeme.endpoint {t : Located Token} (h : IsLexeme text line t)
    (ht : t.node = .terminator) : t.span.endpoint.OnLine text line := by
  obtain ⟨before, c, cs, u, n, htext, hc, -, hnext, rfl⟩ := h
  have hdot : u = .symbol .dot := by
    by_contra hu
    obtain ⟨kind, -, hkind⟩ := next?_eq_some hnext
    simp only [settle, hu, decide_false, Bool.false_and, Bool.false_eq_true, if_false] at ht
    subst ht
    exact token?_ne_terminator _ _ hkind
  subst hdot
  obtain rfl := next?_dot hnext
  have hne : c ≠ '\n' := by
    rintro rfl
    cases hc
  refine ⟨before ++ [c], cs, by simp [htext],
    by simp [spanOf, Span.endpoint, byteLength_append], ?_⟩
  rw [newlines_append, show newlines [c] = 0 from List.count_eq_zero.mpr (by simpa using hne.symm)]
  rfl

/-- The error is behind the last of the tokens, which has a line feed in it, or there are no
tokens. -/
def GrammarError.BelowLast (text : List Char) (tokens : List (Located Token))
    (e : GrammarError) : Prop :=
  e.fault.atEnd = true ∧ e.span = (lastSpan .nowhere tokens).endpoint ∧
    ∀ t ∈ tokens.getLast?, t.span.HasLineFeed text

/-- The errors of a run are on their line, or behind a last token with a line feed in it. -/
theorem onLine_of_places {α : Type} {p : Parser α} {tokens : List (Located Token)}
    {e : GrammarError} (hp : p.Places text line) (h : p.run tokens = .error e)
    (ht : Ordered text line low tokens high) :
    e.span.OnLine text line ∨ e.BelowLast text tokens := by
  rcases (hp _ ⟨.nowhere, tokens⟩ low high ht).2 e (Grammar.run_error h) with hmarks | ⟨hend, hspan⟩
  · exact .inl hmarks.onLine
  · rcases List.eq_nil_or_concat tokens with rfl | ⟨before, last, rfl⟩
    · exact .inr ⟨hend, hspan, by simp⟩
    · rw [List.concat_eq_append] at ht hspan ⊢
      have hlast : lastSpan .nowhere (before ++ [last]) = last.span := lastSpan_append _ _ _
      rcases ht.right.1.endpoint with honline | hfeed
      · exact .inl (by rw [hspan, hlast]; exact honline)
      · exact .inr ⟨hend, hspan, by simpa using hfeed⟩

/-- Every form ends with a terminator, so only what lacks one can have its error below its line. -/
theorem parseForms_error {tokens : List (Located Token)} {e : GrammarError}
    (h : parseForms tokens = .error e) (ht : Ordered text line low tokens high)
    (hlex : ∀ t ∈ tokens, IsLexeme text line t) :
    e.span.OnLine text line ∨ e.BelowLast text tokens := by
  rcases Grammar.parseForms_eq_error h with
    ⟨before, last, rfl, rfl⟩ | ⟨before, q, t, after, rfl, hterm, he⟩
  · rcases ht.right.1.endpoint with honline | hfeed
    · exact .inl honline
    · exact .inr ⟨rfl, by rw [lastSpan_append]; rfl, by simpa using hfeed⟩
  · rcases onLine_of_places Grammar.form_places he ht.left.right with honline | ⟨-, hspan, -⟩
    · exact .inl honline
    · refine .inl ?_
      rw [hspan, lastSpan_append]
      exact (hlex t (by simp)).endpoint hterm

/-- A prefix is known by its length in bytes. -/
theorem prefix_of_byteLength {p q : List Char} (hp : p <+: text) (hq : q <+: text)
    (h : byteLength p = byteLength q) : p = q := by
  have hnil : ∀ {p q : List Char}, p <+: q → byteLength p = byteLength q → p = q := by
    rintro p _ ⟨_ | ⟨c, r⟩, rfl⟩ h
    · simp
    · rw [byteLength_append, byteLength] at h
      have := c.utf8Size_pos
      omega
  rcases List.prefix_or_prefix_of_prefix hp hq with hpq | hqp
  · exact hnil hpq h
  · exact (hnil hqp h.symm).symm

/-- What ends below the line on which it begins has the wrong line at its end, unless there are more
lines than line numbers. -/
theorem Span.HasLineFeed.not_onLine {s : Span} (h : s.HasLineFeed text) (hs : s.Marks text line)
    (hlines : line + newlines text ≤ lastLine) : ¬ s.endpoint.OnLine text line := by
  rintro ⟨before, after, htext, hstart, hline⟩
  obtain ⟨p, part, q, htext', hstart', hstop', hfeed⟩ := h
  obtain ⟨p', part', q', htext'', hstart'', -, hline'⟩ := hs
  have hbefore : before = p ++ part :=
    prefix_of_byteLength ⟨after, htext.symm⟩ ⟨q, htext'.symm⟩ (by rw [← hstart, ← hstop']; rfl)
  have hprefix : p <+: text := ⟨part ++ q, by rw [htext', List.append_assoc]⟩
  have hprefix' : p' <+: text := ⟨part' ++ q', by rw [htext'', List.append_assoc]⟩
  have hp : p' = p := prefix_of_byteLength hprefix' hprefix (by rw [← hstart', ← hstart''])
  have hpos : 0 < newlines part := List.count_pos_iff.mpr hfeed
  have hall : newlines text = newlines p + newlines part + newlines q := by
    rw [htext', newlines_append, newlines_append]
  have hsame : advanceLine line (newlines p') = advanceLine line (newlines before) := by
    rw [← hline', ← hline]
    rfl
  rw [hp, hbefore, newlines_append] at hsame
  simp only [advanceLine] at hsame
  omega

section

variable {source : String}

/-- What is lexed is tokenized from the first line. -/
theorem tokenize_of_lex {tokens : List (Located Token)} (h : lex source = .ok tokens) :
    ∃ endLine, tokenize source 1 = .ok (tokens, endLine) := by
  rw [lex] at h
  cases ht : tokenize source 1 with
  | error _ => simp [ht, Except.map] at h
  | ok r =>
      simp only [ht, Except.map, Except.ok.injEq] at h
      exact ⟨r.2, by rw [← h]⟩

theorem lex_of_tokenize {tokens : List (Located Token)} {endLine : Nat}
    (h : tokenize source 1 = .ok (tokens, endLine)) : lex source = .ok tokens := by
  rw [lex, h]
  rfl

theorem one_le_lastLine : 1 ≤ lastLine := by decide

/-- A snippet ends with a terminator of its own, so it never ends below the line of its last
token. -/
theorem parseSnippet_error {e : SourceError} (h : parseSnippet source = .error e) :
    e.span.OnLine source.toList 1 := by
  rcases parseSnippetAt_eq_error h with
    ⟨e', ht, rfl⟩ | ⟨tokens, endLine, ht, ⟨e', hp, rfl⟩ | ⟨f, hp, rfl⟩⟩
  · exact (tokenize_error_marks one_le_lastLine ht).onLine
  · have hordered := wrapSnippet_ordered one_le_lastLine ht
    rcases onLine_of_places Grammar.expressionSequence_places hp hordered with
      honline | ⟨-, hspan, -⟩
    · exact honline
    · obtain ⟨-, rfl⟩ := tokenize_ordered one_le_lastLine ht
      change e'.span.OnLine source.toList 1
      rw [hspan, wrapSnippet, lastSpan_append]
      exact ⟨source.toList, [], by simp, rfl, rfl⟩
  · have hordered := wrapSnippet_ordered one_le_lastLine ht
    exact (Grammar.parseExpressionSequence_placed hp hordered).span.1.onLine

end

/-- An error names the line on which it is, in the lexer, in a snippet, in the forms of a text and
in a sequence of expressions. Only behind a last token with a line feed in it, and where there are
no tokens, it does not. -/
theorem error_onLine (source : String) :
    (∀ e, lex source = .error e → e.span.OnLine source.toList 1) ∧
      (∀ e, parseSnippet source = .error e → e.span.OnLine source.toList 1) ∧
      (∀ e, parseDeclarations source = .error e → e.span.OnLine source.toList 1 ∨
        ∃ tokens err, lex source = .ok tokens ∧ e = .grammar err ∧
        err.BelowLast source.toList tokens) ∧
      ∀ tokens e, lex source = .ok tokens → parseExpressionSequence tokens = .error e →
        e.span.OnLine source.toList 1 ∨ e.BelowLast source.toList tokens := by
  refine ⟨fun e h => ?_, fun e h => parseSnippet_error h, fun e h => ?_, fun tokens e ht h => ?_⟩
  · rw [lex] at h
    cases ht : tokenize source 1 with
    | error e' =>
        obtain rfl : e' = e := by simpa [ht, Except.map] using h
        exact (tokenize_error_marks one_le_lastLine ht).onLine
    | ok r => simp [ht, Except.map] at h
  · rcases parseDeclarationsAt_eq_error h with ⟨e', ht, rfl⟩ | ⟨tokens, endLine, e', ht, hp, rfl⟩
    · exact .inl (tokenize_error_marks one_le_lastLine ht).onLine
    · have hordered := (tokenize_ordered one_le_lastLine ht).1
      refine (parseForms_error hp hordered (tokenize_isLexeme one_le_lastLine ht)).imp_right
        fun hlast => ?_
      exact ⟨tokens, e', lex_of_tokenize ht, rfl, hlast⟩
  · obtain ⟨endLine, ht⟩ := tokenize_of_lex ht
    exact onLine_of_places Grammar.expressionSequence_places h
      (tokenize_ordered one_le_lastLine ht).1

/-- The string reaches over two lines, and the missing terminator behind it is said to be on the
first. -/
theorem error_below_string :
    ∃ e, parseDeclarations "f() -> \"a\nb\"" = .error e ∧
      ¬ e.span.OnLine "f() -> \"a\nb\"".toList 1 := by
  have htokens : tokenize "f() -> \"a\nb\"" 1 = .ok ([⟨.atom "f", ⟨0, 1, 1⟩⟩,
      ⟨.symbol .leftParen, ⟨1, 2, 1⟩⟩, ⟨.symbol .rightParen, ⟨2, 3, 1⟩⟩,
      ⟨.symbol .arrow, ⟨4, 6, 1⟩⟩, ⟨.string "a\nb", ⟨7, 12, 1⟩⟩], 2) := by
    decide +kernel
  have hforms : parseDeclarations "f() -> \"a\nb\"" =
      .error (.grammar ⟨.declaration, .missingTerminator, ⟨12, 12, 1⟩⟩) := by
    refine (parseDeclarationsAt_eq htokens).trans ?_
    cbv
  refine ⟨_, hforms, ?_⟩
  have hmarks : Span.Marks "f() -> \"a\nb\"".toList 1 ⟨7, 12, 1⟩ :=
    ⟨"f() -> ".toList, "\"a\nb\"".toList, [], by decide, by decide, by decide, by decide⟩
  have hfeed : Span.HasLineFeed "f() -> \"a\nb\"".toList ⟨7, 12, 1⟩ :=
    ⟨"f() -> ".toList, "\"a\nb\"".toList, [], by decide, by decide, by decide, by decide⟩
  exact hfeed.not_onLine hmarks (by decide)

/-- A quote that is not closed, a comma with nothing behind it and a missing body, all on the second
line. -/
theorem error_onLine_second :
    (∃ e, lex "\n\"" = .error e ∧ e.span.OnLine "\n\"".toList 1) ∧
      (∃ e, parseSnippet "X,\n" = .error e ∧ e.span.OnLine "X,\n".toList 1) ∧
      (∃ e, parseDeclarations "f() ->\n." = .error e ∧ (e.span.OnLine "f() ->\n.".toList 1 ∨
        ∃ tokens err, lex "f() ->\n." = .ok tokens ∧ e = .grammar err ∧
          err.BelowLast "f() ->\n.".toList tokens)) ∧
      ∃ tokens e, lex "X,\n" = .ok tokens ∧ parseExpressionSequence tokens = .error e ∧
        (e.span.OnLine "X,\n".toList 1 ∨ e.BelowLast "X,\n".toList tokens) := by
  have hlex : lex "\n\"" = .error ⟨.unterminated .string, ⟨1, 2, 2⟩⟩ := by decide +kernel
  have ht : tokenize "X,\n" 1 = .ok ([⟨.var "X", ⟨0, 1, 1⟩⟩, ⟨.symbol .comma, ⟨1, 2, 1⟩⟩], 2) := by
    decide +kernel
  have hsnippet : parseSnippet "X,\n" =
      .error (.grammar ⟨.beginBlock, .expected .expression (some (.keyword .end_)),
        ⟨3, 3, 2⟩⟩) := by
    refine (parseSnippetAt_of_byteLength 3 ht (by decide +kernel)).trans ?_
    cbv
  have hforms : parseDeclarations "f() ->\n." =
      .error (.grammar ⟨.function, .expected .expression (some .terminator), ⟨7, 8, 2⟩⟩) := by
    have ht : tokenize "f() ->\n." 1 =
        .ok ([⟨.atom "f", ⟨0, 1, 1⟩⟩, ⟨.symbol .leftParen, ⟨1, 2, 1⟩⟩,
        ⟨.symbol .rightParen, ⟨2, 3, 1⟩⟩, ⟨.symbol .arrow, ⟨4, 6, 1⟩⟩,
        ⟨.terminator, ⟨7, 8, 2⟩⟩], 2) := by
      decide +kernel
    refine (parseDeclarationsAt_eq ht).trans ?_
    cbv
  have htokens : lex "X,\n" = .ok [⟨.var "X", ⟨0, 1, 1⟩⟩, ⟨.symbol .comma, ⟨1, 2, 1⟩⟩] :=
    lex_of_tokenize ht
  have hsequence : parseExpressionSequence [⟨.var "X", ⟨0, 1, 1⟩⟩, ⟨.symbol .comma, ⟨1, 2, 1⟩⟩] =
      .error ⟨.expressionSequence, .expected .expression none, ⟨2, 2, 1⟩⟩ := by cbv
  exact ⟨⟨_, hlex, (error_onLine _).1 _ hlex⟩, ⟨_, hsnippet, (error_onLine _).2.1 _ hsnippet⟩,
    ⟨_, hforms, (error_onLine _).2.2.1 _ hforms⟩,
    ⟨_, _, htokens, hsequence, (error_onLine _).2.2.2 _ _ htokens hsequence⟩⟩

end ErlangFragment
