import ErlangFragment.Grammar.Form
import ErlangFragment.Proofs.Grammar.Laws
import ErlangFragment.Proofs.Tree.Erasure

/-! Spans do not influence reading. On the same tokens with other spans a parser has the same
outcome, but for the spans in it. -/

namespace ErlangFragment

instance : Erasable Token := ⟨id⟩

/-- The same tokens are left, whatever their spans. -/
def Cursor.Alike (c d : Cursor) : Prop := c.rest.map Located.node = d.rest.map Located.node

namespace Cursor.Alike

variable {c d : Cursor}

theorem next_eq (h : c.Alike d) : c.next = d.next := by
  rw [← next_eq_map, ← next_eq_map, ← List.head?_map, ← List.head?_map, h]

theorem length_eq (h : c.Alike d) : c.rest.length = d.rest.length := by
  rw [← List.length_map Located.node, h, List.length_map]

theorem drop (h : c.Alike d) (n : Nat) (s t : Span) :
    Cursor.Alike ⟨s, c.rest.drop n⟩ ⟨t, d.rest.drop n⟩ := by
  simp only [Cursor.Alike, List.map_drop, show c.rest.map _ = d.rest.map _ from h]

end Cursor.Alike

namespace Parser

open ErlangFragment.Reader

variable {α β : Type} [Erasable α] [Erasable β]

/-- Outcomes that differ in their spans at most. -/
def SameOutcome : Except GrammarError (α × Cursor) → Except GrammarError (α × Cursor) → Prop
  | .ok (a, c), .ok (b, d) => erase a = erase b ∧ c.Alike d
  | .error x, .error y => x.context = y.context ∧ x.fault = y.fault
  | _, _ => False

/-- The parsers have the same outcome on the same tokens, but for spans. -/
def Agree (p q : Parser α) : Prop := ∀ m c d, c.Alike d → SameOutcome (p m c) (q m d)

/-! ### Laws -/

/-- Results may differ in their spans. -/
theorem Agree.pure {a b : α} (h : erase a = erase b) :
    Agree (return a : Parser α) (return b : Parser α) := fun _ _ _ hcd => ⟨h, hcd⟩

/-- What agrees up to the spans of its result may go on with results that differ in their spans. -/
theorem Agree.bind {p q : Parser α} {f g : α → Parser β} (h : Agree p q)
    (hf : ∀ a b, erase a = erase b → Agree (f a) (g b)) : Agree (p >>= f) (q >>= g) := by
  intro m c d hcd
  have hpq := h m c d hcd
  rcases hp : p m c with x | ⟨a, c'⟩ <;> rcases hq : q m d with y | ⟨b, d'⟩ <;> rw [hp, hq] at hpq
  · rw [bind_of_error hp, bind_of_error hq]
    exact hpq
  · exact hpq.elim
  · exact hpq.elim
  · rw [bind_of_ok hp, bind_of_ok hq]
    exact hf a b hpq.1 m c' d' hpq.2

theorem Agree.fail (fault : GrammarFault) (s t : Span) :
    Agree (fail fault s : Parser α) (fail fault t : Parser α) := fun _ _ _ _ => ⟨rfl, rfl⟩

/-- What is found instead of the expected is the same, wherever it stands. -/
theorem agree_unexpected (what : Expectation) :
    Agree (unexpected what : Parser α) (unexpected what : Parser α) := by
  intro m c d hcd
  have hnext := hcd.next_eq
  rw [← Cursor.next_eq_map, ← Cursor.next_eq_map] at hnext
  exact ⟨rfl, congrArg (GrammarFault.expected what) hnext⟩

/-- What reads nothing may go on with what the cursor shows. -/
theorem Agree.peek? {f g : Option Token → Parser α} (h : ∀ t, Agree (f t) (g t)) :
    Agree (peek? >>= f) (peek? >>= g) := by
  intro m c d hcd
  rw [peek?_bind, peek?_bind, hcd.next_eq]
  exact h _ m c d hcd

theorem Agree.peekTwo? {f g : Option Token × Option Token → Parser α} (h : ∀ t, Agree (f t) (g t)) :
    Agree (peekTwo? >>= f) (peekTwo? >>= g) := by
  intro m c d hcd
  have hsecond := (hcd.drop 1 .nowhere .nowhere).next_eq
  rw [← Cursor.next_eq_map, ← Cursor.next_eq_map] at hsecond
  rw [peekTwo?_bind, peekTwo?_bind, hcd.next_eq, hsecond]
  exact h _ m c d hcd

/-- A branch on the next token must not depend on the span of the token. -/
theorem Agree.next? {f g : Option (Located Token) → Parser α} (hnone : Agree (f none) (g none))
    (hsome : ∀ t s s', Agree (f (some ⟨t, s⟩)) (g (some ⟨t, s'⟩))) :
    Agree (next? >>= f) (next? >>= g) := by
  intro m c d hcd
  have hnext := hcd.next_eq
  rw [← Cursor.next_eq_map, ← Cursor.next_eq_map] at hnext
  rw [next?_bind, next?_bind]
  rcases hc : c.rest.head? with _ | ⟨t, s⟩ <;> rcases hd : d.rest.head? with _ | ⟨u, s'⟩ <;>
    rw [hc, hd] at hnext
  · exact hnone m c d hcd
  · cases hnext
  · cases hnext
  · obtain rfl : t = u := by simpa using hnext
    exact hsome t s s' m c d hcd

theorem Agree.colonSeparates {f g : Bool → Parser α} (h : ∀ b, Agree (f b) (g b)) :
    Agree (colonSeparates >>= f) (colonSeparates >>= g) := fun _ _ _ hcd => h _ _ _ _ hcd

/-- Places may be read, as long as what follows does not depend on them. -/
theorem Agree.position {f g : Span → Parser α} (h : ∀ s t, Agree (f s) (g t)) :
    Agree (position >>= f) (position >>= g) := fun _ _ _ hcd => h _ _ _ _ _ hcd

theorem Agree.previous {f g : Span → Parser α} (h : ∀ s t, Agree (f s) (g t)) :
    Agree (previous >>= f) (previous >>= g) := fun _ _ _ hcd => h _ _ _ _ _ hcd

theorem agree_advance : Agree advance advance := by
  intro m c d hcd
  obtain ⟨s, _ | ⟨t, ts⟩⟩ := c <;> obtain ⟨s', _ | ⟨u, us⟩⟩ := d
  · exact ⟨rfl, hcd⟩
  · cases hcd
  · cases hcd
  · exact ⟨rfl, (List.cons.inj hcd).2⟩

theorem Agree.advance {p q : Parser α} (h : Agree p q) :
    Agree (advance >>= fun _ => p) (advance >>= fun _ => q) := .bind agree_advance fun _ _ _ => h

theorem Agree.inContext {p q : Parser α} (h : Agree p q) (context : GrammarContext) :
    Agree (inContext context p) (inContext context q) := fun _ c d hcd => h _ c d hcd

theorem Agree.withColonSeparating {p q : Parser α} (h : Agree p q) (b : Bool) :
    Agree (withColonSeparating b p) (withColonSeparating b q) := fun _ c d hcd => h _ c d hcd

theorem Agree.bounded {p q : Nat → Parser α} (h : ∀ n, Agree (p n) (q n)) :
    Agree (bounded p) (bounded q) := by
  intro m c d hcd
  rw [bounded_apply, bounded_apply, hcd.length_eq]
  exact h _ m c d hcd

theorem Agree.ite {p q p' q' : Parser α} {b : Prop} [Decidable b] (h : Agree p p')
    (h' : Agree q q') :
    Agree (if b then p else q) (if b then p' else q') := by
  split
  · exact h
  · exact h'

/-! ### Reading tokens -/

theorem Agree.check {t : Token} {p q p' q' : Parser α} (h : Agree p p') (h' : Agree q q') :
    Agree (check t >>= fun b => if b = true then p else q)
      (check t >>= fun b => if b = true then p' else q') := by
  intro m c d hcd
  rw [check_bind, check_bind, hcd.next_eq]
  exact Agree.ite h h' m c d hcd

/-- Both take the same branch, and have then passed the same token. -/
theorem Agree.eat {t : Token} {p q p' q' : Parser α} (h : Agree p p') (h' : Agree q q') :
    Agree (eat t >>= fun b => if b = true then p else q)
      (eat t >>= fun b => if b = true then p' else q') := by
  intro m c d hcd
  have hnext := hcd.next_eq
  by_cases ht : c.next = some t
  · obtain ⟨u, c₁, hu, hp⟩ := Cursor.next_eq_some_iff.mp ht
    obtain ⟨v, d₁, hv, hq⟩ := Cursor.next_eq_some_iff.mp (hnext ▸ ht)
    subst hu
    rw [eat_bind_of_next hp, ← hv, eat_bind_of_next hq]
    refine h m c₁ d₁ ?_
    have hrest : (u :: c₁.rest).map Located.node = (v :: d₁.rest).map Located.node := by
      have hall := hcd
      rwa [Cursor.Alike, hp.rest, hq.rest] at hall
    exact (List.cons.inj hrest).2
  · rw [eat_bind_of_ne ht, eat_bind_of_ne (hnext ▸ ht)]
    exact h' m c d hcd

theorem agree_previous : Agree previous previous := fun _ _ _ hcd => ⟨rfl, hcd⟩

theorem agree_expect (t : Token) : Agree (expect t) (expect t) :=
  .eat agree_previous (agree_unexpected _)

theorem Agree.expect {t : Token} {f g : Span → Parser α} (h : ∀ s s', Agree (f s) (g s')) :
    Agree (expect t >>= f) (expect t >>= g) := .bind (agree_expect t) fun s s' _ => h s s'

theorem agree_expectAtom : Agree expectAtom expectAtom := by
  refine .next? (agree_unexpected _) fun t s s' => ?_
  cases t with
  | atom name => exact .advance (.pure rfl)
  | _ => exact agree_unexpected _

theorem Agree.expectAtom {f g : Located String → Parser α}
    (h : ∀ name s s', Agree (f ⟨name, s⟩) (g ⟨name, s'⟩)) :
    Agree (expectAtom >>= f) (expectAtom >>= g) := by
  refine .bind agree_expectAtom fun a b hab => ?_
  obtain ⟨x, s⟩ := a
  obtain ⟨y, s'⟩ := b
  obtain rfl : x = y := congrArg Located.node hab
  exact h x s s'

theorem agree_expectEnd : Agree expectEnd expectEnd :=
  .next? (.pure rfl) fun _ _ _ => .fail _ _ _

/-- The rounds of a loop are counted alike, as there are as many tokens left. -/
theorem Agree.more {p : Parser α} (h : Agree p p) (s : Token) (n : Nat) :
    Agree (more s p n) (more s p n) := by
  induction n with
  | zero => exact .pure rfl
  | succ n ih =>
      refine .eat (.bind h fun a b hab => .bind ih fun as bs habs => .pure ?_) (.pure rfl)
      rw [erase_cons, erase_cons, hab, habs]

theorem Agree.separated {p : Parser α} (h : Agree p p) (s : Token) :
    Agree (separated s p) (separated s p) := by
  refine .bind h fun a b hab => .bind (.bounded (h.more s)) fun as bs habs => .pure ?_
  rw [erase_cons, erase_cons, hab, habs]

theorem Agree.spanned {p : Parser α} (h : Agree p p) : Agree (spanned p) (spanned p) :=
  .position fun _ _ => .bind h fun _ _ hab => .previous fun _ _ => .pure
    (congrArg (Located.mk · Span.nowhere) hab)

end Parser

namespace Grammar

open ErlangFragment.Parser ErlangFragment.Reader

section

variable {rules : Rules Parser} (hr : ∀ nt, Agree (rules nt) (rules nt))

include hr

theorem exprs_agree : Agree (exprs rules) (exprs rules) := (hr .expression).separated _

theorem argPatterns_agree : Agree (argPatterns rules) (argPatterns rules) :=
  .expect fun _ _ => .eat (.pure rfl) <|
    .bind ((exprs_agree hr).inContext _) fun _ _ h => .expect fun _ _ => .pure h

theorem guardSequence_agree : Agree (guardSequence rules) (guardSequence rules) :=
  ((exprs_agree hr).separated _).inContext _

theorem guards_agree : Agree (guards rules) (guards rules) :=
  .eat (guardSequence_agree hr) (.pure rfl)

/-- The patterns in front may differ in their spans. -/
theorem clauseRest_agree {ps qs : List (Located Expr)} (h : erase ps = erase qs) :
    Agree (clauseRest rules ps) (clauseRest rules qs) := by
  refine .bind (guards_agree hr) fun gs hs hgs => .expect fun _ _ => ?_
  refine .bind (exprs_agree hr) fun es fs hes => .pure ?_
  change Clause.mk (erase ps) (erase gs) (erase es) = Clause.mk (erase qs) (erase hs) (erase fs)
  rw [h, hgs, hes]

theorem caseClause_agree : Agree (caseClause rules) (caseClause rules) := by
  refine .inContext (.spanned ?_) _
  exact .bind (hr .expression) fun p q h => clauseRest_agree hr (by simp [h])

theorem caseClauses_agree : Agree (caseClauses rules) (caseClauses rules) :=
  (caseClause_agree hr).separated _

theorem catchPatterns_agree : Agree (catchPatterns rules) (catchPatterns rules) := by
  refine .bind (hr .expression) fun e f h => .eat ?_ ?_
  · refine .bind (hr .expression) fun e' f' h' => .eat ?_ ?_
    · exact .bind (hr .expression) fun e'' f'' h'' => .pure (by simp [h, h', h''])
    · exact .pure (by simp [h, h', erase_expr])
  · exact .pure (by simp [h, erase_expr])

theorem catchClause_agree : Agree (catchClause rules) (catchClause rules) := by
  refine .inContext (.spanned ?_) _
  exact .bind ((catchPatterns_agree hr).withColonSeparating _) fun _ _ h => clauseRest_agree hr h

theorem catchClauses_agree : Agree (catchClauses rules) (catchClauses rules) :=
  (catchClause_agree hr).separated _

omit hr in
theorem repeatedName_agree (name : Option String) :
    Agree (repeatedName name) (repeatedName name) := by
  cases name with
  | none => exact .pure rfl
  | some v => exact .peek? fun t => .ite agree_advance (agree_unexpected _)

theorem funClause_agree (name : Option String) :
    Agree (funClause rules name) (funClause rules name) := by
  refine .inContext (.spanned (.bind (repeatedName_agree name) fun _ _ _ => ?_)) _
  exact .bind (argPatterns_agree hr) fun _ _ h => clauseRest_agree hr h

theorem funClauses_agree (name : Option String) :
    Agree (funClauses rules name) (funClauses rules name) := (funClause_agree hr name).separated _

theorem ifClause_agree : Agree (ifClause rules) (ifClause rules) := by
  refine .inContext (.spanned (.bind (guardSequence_agree hr) fun gs hs hgs =>
    .expect fun _ _ => ?_)) _
  refine .bind (exprs_agree hr) fun es fs hes => .pure ?_
  change Clause.mk [] (erase gs) (erase es) = Clause.mk [] (erase hs) (erase fs)
  rw [hgs, hes]

theorem callArgs_agree : Agree (callArgs rules) (callArgs rules) :=
  .expect fun _ _ => .eat (.pure rfl) <|
    .bind ((exprs_agree hr).withColonSeparating _) fun _ _ h => .expect fun _ _ => .pure h

omit hr in
theorem braced_agree {α : Type} [Erasable α] {p : Parser α} (h : Agree p p) :
    Agree (braced p) (braced p) :=
  .expect fun _ _ => .eat (.pure rfl) <|
    .bind (h.separated _) fun _ _ h => .expect fun _ _ => .pure h

omit hr in
theorem fieldOperator_agree : Agree fieldOperator fieldOperator :=
  .eat (.pure rfl) (.eat (.pure rfl) (agree_unexpected _))

theorem mapField_agree : Agree (mapField rules) (mapField rules) := by
  refine .bind (hr .expression) fun k k' hk => .bind fieldOperator_agree fun op op' hop => ?_
  refine .bind (hr .expression) fun v v' hv => .pure ?_
  change MapField.mk (erase k) op (erase v) = MapField.mk (erase k') op' (erase v')
  rw [hk, hv, show op = op' from hop]

omit hr in
theorem fieldName_agree : Agree fieldName fieldName := by
  refine .next? (agree_unexpected _) fun t s s' => ?_
  cases t with
  | atom name => exact .advance (.pure rfl)
  | var name => exact .advance (.pure rfl)
  | _ => exact agree_unexpected _

theorem recordField_agree : Agree (recordField rules) (recordField rules) := by
  refine .bind fieldName_agree fun n n' hn => .expect fun _ _ => ?_
  refine .bind (hr .expression) fun v v' hv => .pure ?_
  change RecordField.mk (erase n) (erase v) = RecordField.mk (erase n') (erase v')
  rw [hn, hv]

/-- The base in front may differ in its spans. -/
theorem hash_agree {b b' : Option (Located Expr)} (h : erase b = erase b') :
    Agree (hash rules b) (hash rules b') := by
  refine .expect fun _ _ => .check ?_ ?_
  · refine .bind ((braced_agree (mapField_agree hr)).inContext _) fun fs fs' hfs => ?_
    exact .previous fun _ _ => .pure (erase_congr (by simp only [Expr.eraseParts, h, hfs]) _ _)
  refine .expectAtom fun name _ _ => .eat ?_ ?_
  · refine .expectAtom fun field _ _ => ?_
    cases b with
    | none =>
        cases b' with
        | none => exact .pure (erase_congr rfl _ _)
        | some e' => cases h
    | some e =>
        cases b' with
        | none => cases h
        | some e' =>
            have he : erase e = erase e' := by simpa using h
            exact .pure (erase_congr (by simp only [Expr.eraseParts, he]) _ _)
  · refine .bind ((braced_agree (recordField_agree hr)).inContext _) fun fs fs' hfs => ?_
    exact .previous fun _ _ => .pure (erase_congr (by simp only [Expr.eraseParts, h, hfs]) _ _)

theorem qualifier_agree : Agree (qualifier rules) (qualifier rules) := by
  refine .bind (hr .expression) fun e e' he => .eat ?_ (.eat ?_ (.pure ?_))
  · refine .bind (hr .expression) fun f f' hf => .pure ?_
    change Qualifier.generator (erase e) (erase f) = Qualifier.generator (erase e') (erase f')
    rw [he, hf]
  · refine .bind (hr .expression) fun f f' hf => .pure ?_
    change Qualifier.binaryGenerator (erase e) (erase f) =
        Qualifier.binaryGenerator (erase e') (erase f')
    rw [he, hf]
  · exact congrArg Qualifier.filter he

theorem qualifiers_agree : Agree (qualifiers rules) (qualifiers rules) :=
  ((qualifier_agree hr).separated _).inContext _

theorem listBody_agree : Agree (listBody rules) (listBody rules) := by
  refine .check (.pure rfl) (.bind (hr .expression) fun e e' he => .eat ?_ ?_)
  · refine .bind (qualifiers_agree hr) fun qs qs' hqs => .pure ?_
    change Expr.listComp (erase e) (erase qs) = Expr.listComp (erase e') (erase qs')
    rw [he, hqs]
  refine .bind (.bounded ((hr .expression).more _)) fun es es' hes => .eat ?_ (.pure ?_)
  · refine .bind (hr .expression) fun t t' ht => .pure ?_
    change Expr.list (erase (e :: es)) (erase (some t)) =
        Expr.list (erase (e' :: es')) (erase (some t'))
    simp only [erase_cons, erase_some, he, hes, ht]
  · change Expr.list (erase (e :: es)) none = Expr.list (erase (e' :: es')) none
    simp only [erase_cons, he, hes]

omit hr in
theorem segmentType_agree : Agree segmentType segmentType := by
  refine .expectAtom fun name _ _ => .eat (.peek? fun t => ?_) (.pure rfl)
  rcases t with _ | _ | ⟨n | _⟩ | _ | _ | _ | _ | _ | _ | _ | _
  case some.integer.small => exact .advance (.pure rfl)
  all_goals exact agree_unexpected _

theorem segmentValue_agree : Agree (segmentValue rules) (segmentValue rules) := by
  refine .peek? fun t => ?_
  cases t.bind UnaryOp.ofToken? with
  | none => exact hr .primary
  | some op =>
      refine .position fun _ _ => .advance (.bind (hr .primary) fun e f h => .pure ?_)
      exact erase_congr (by simp only [Expr.eraseParts, h]) _ _

theorem segmentSize_agree : Agree (segmentSize rules) (segmentSize rules) :=
  .eat (.bind (hr .primary) fun _ _ h => .pure (by simp [h])) (.pure rfl)

omit hr in
theorem segmentTypes_agree : Agree segmentTypes segmentTypes :=
  .eat (segmentType_agree.separated _) (.pure rfl)

theorem segment_agree : Agree (segment rules) (segment rules) := by
  refine .inContext (.bind (segmentValue_agree hr) fun v v' hv => ?_) _
  refine .bind (segmentSize_agree hr) fun n n' hn =>
    .bind segmentTypes_agree fun ts ts' hts => .pure ?_
  change Segment.mk (erase v) (erase n) ts = Segment.mk (erase v') (erase n') ts'
  obtain rfl : ts = ts' := by simpa [erase] using hts
  rw [hv, hn]

theorem binaryBody_agree : Agree (binaryBody rules) (binaryBody rules) := by
  refine .check (.pure rfl) (.bind (segment_agree hr) fun s s' hs => .check ?_ ?_)
  · obtain ⟨v, n, ts⟩ := s
    obtain ⟨v', n', ts'⟩ := s'
    obtain ⟨hv, hn, rfl⟩ : erase v = erase v' ∧ erase n = erase n' ∧ ts = ts' := by
      simpa [erase] using hs
    have hsome : n.isSome = n'.isSome := by
      cases n <;> cases n' <;> first | rfl | cases hn
    simp only [hsome]
    refine .ite (.fail _ _ _) (.advance (.bind (qualifiers_agree hr) fun qs qs' hqs => .pure ?_))
    change Expr.binaryComp (erase v) (erase qs) = Expr.binaryComp (erase v') (erase qs')
    rw [hv, hqs]
  · refine .bind (.bounded ((segment_agree hr).more _)) fun ss ss' hss => .pure ?_
    change Expr.binary (erase (s :: ss)) = Expr.binary (erase (s' :: ss'))
    rw [erase_cons, erase_cons, hs, hss]

omit hr in
theorem enclosed_agree {p : Parser Expr} (h : Agree p p) (opening closing : Token) :
    Agree (enclosed opening closing p) (enclosed opening closing p) :=
  .expect fun _ _ => .bind h fun _ _ he => .expect fun _ _ => .pure (erase_congr he _ _)

theorem tuple_agree : Agree (tuple rules) (tuple rules) := by
  refine enclosed_agree (.check (.pure rfl) (.bind (exprs_agree hr) fun es fs h => .pure ?_)) _ _
  exact congrArg Expr.tuple h

theorem block_agree : Agree (block rules) (block rules) := by
  refine enclosed_agree (.bind ((exprs_agree hr).inContext _) fun es fs h => .pure ?_) _ _
  exact congrArg Expr.block h

theorem caseExpr_agree : Agree (caseExpr rules) (caseExpr rules) := by
  refine enclosed_agree (.bind (hr .expression) fun e f he => .expect fun _ _ => ?_) _ _
  refine .bind (caseClauses_agree hr) fun cs ds hcs => .pure ?_
  change Expr.caseExpr (erase e) (erase cs) = Expr.caseExpr (erase f) (erase ds)
  rw [he, hcs]

theorem ifExpr_agree : Agree (ifExpr rules) (ifExpr rules) := by
  refine enclosed_agree (.bind ((ifClause_agree hr).separated _) fun cs ds h => .pure ?_) _ _
  exact congrArg Expr.ifExpr h

theorem after?_agree : Agree (after? rules) (after? rules) := by
  refine .eat (.bind (hr .expression) fun e f he => .expect fun _ _ => ?_) (.pure rfl)
  refine .bind (exprs_agree hr) fun es fs hes => .pure ?_
  change some (After.mk (erase e) (erase es)) = some (After.mk (erase f) (erase fs))
  rw [he, hes]

theorem receiveClauses_agree : Agree (receiveClauses rules) (receiveClauses rules) :=
  .check (.pure rfl) (caseClauses_agree hr)

theorem receiveExpr_agree : Agree (receiveExpr rules) (receiveExpr rules) := by
  refine enclosed_agree (.bind (receiveClauses_agree hr) fun cs ds hcs => ?_) _ _
  refine .bind (after?_agree hr) fun a b ha => .pure ?_
  change Expr.receiveExpr (erase cs) (erase a) = Expr.receiveExpr (erase ds) (erase b)
  rw [hcs, ha]

omit hr in
theorem part_agree {α : Type} [Erasable α] {p : Parser (List α)} (h : Agree p p) (word : Keyword) :
    Agree (part word p) (part word p) := .eat h (.pure rfl)

omit hr in
theorem isEmpty_of_erase {α : Type} [Erasable α] {as bs : List α} (h : erase as = erase bs) :
    as.isEmpty = bs.isEmpty := by
  cases as <;> cases bs <;> first | rfl | cases h

theorem tryExpr_agree : Agree (tryExpr rules) (tryExpr rules) := by
  refine enclosed_agree (.bind (exprs_agree hr) fun es fs hes => ?_) _ _
  refine .bind (part_agree (caseClauses_agree hr) _) fun os ps hos => ?_
  refine .bind (part_agree (catchClauses_agree hr) _) fun cs ds hcs => ?_
  refine .bind (part_agree (exprs_agree hr) _) fun as bs has => ?_
  rw [isEmpty_of_erase hcs, isEmpty_of_erase has]
  refine .ite (agree_unexpected _) (.pure ?_)
  change Expr.tryExpr (erase es) (erase os) (erase cs) (erase as) =
    Expr.tryExpr (erase fs) (erase ps) (erase ds) (erase bs)
  rw [hes, hos, hcs, has]

theorem funBody_agree (s t : Span) (name : Option String) :
    Agree (funBody rules s name) (funBody rules t name) := by
  refine .bind (funClauses_agree hr name) fun cs ds h => .expect fun _ _ => .pure ?_
  exact erase_congr (by simp only [Expr.eraseParts, h]) _ _

theorem funArity_agree (s t : Span) {m m' : Option (Located Expr)} (hm : erase m = erase m')
    {f f' : Located Expr} (hf : erase f = erase f') :
    Agree (funArity rules s m f) (funArity rules t m' f') := by
  refine .expect fun _ _ => .bind (hr .primary) fun a b h => .pure ?_
  exact erase_congr (by simp only [Expr.eraseParts, hm, hf, h]) _ _

theorem localReference_agree (s t : Span) :
    Agree (localReference rules s) (localReference rules t) :=
  .bind (hr .primary) fun _ _ h => funArity_agree hr s t rfl h

theorem remoteReference_agree (s t : Span) :
    Agree (remoteReference rules s) (remoteReference rules t) :=
  .bind (hr .primary) fun _ _ hm => .expect fun _ _ =>
    .bind (hr .primary) fun _ _ hf => funArity_agree hr s t (by simp [hm]) hf

theorem funExpr_agree : Agree (funExpr rules) (funExpr rules) := by
  refine .expect fun s t => .peekTwo? fun k => ?_
  rcases funKind? k with _ | name | _ | _
  · exact agree_unexpected _
  · exact funBody_agree hr s t name
  · exact localReference_agree hr s t
  · exact remoteReference_agree hr s t

omit hr in
theorem macroName_agree : Agree macroName macroName := by
  refine .peek? fun t => ?_
  rcases t with _ | t
  · exact agree_unexpected _
  cases t with
  | atom name => exact .advance (.pure rfl)
  | var name => exact .advance (.pure rfl)
  | _ => exact agree_unexpected _

theorem macroUse_agree : Agree (macroUse rules) (macroUse rules) := by
  refine .expect fun _ _ => .bind macroName_agree fun n n' hn => .check ?_ ?_
  · refine .bind (callArgs_agree hr) fun as bs h => .previous fun _ _ => .pure ?_
    obtain rfl : n = n' := hn
    exact erase_congr (by simp only [Expr.eraseParts, erase_some, h]) _ _
  · obtain rfl : n = n' := hn
    exact .previous fun _ _ => .pure (erase_congr rfl _ _)

omit hr in
/-- The texts of strings have no spans. -/
theorem stringTexts_agree (n : Nat) : Agree (stringTexts n) (stringTexts n) := by
  induction n with
  | zero => exact .pure rfl
  | succ n ih =>
      refine .peek? fun t => ?_
      split
      · rename_i text
        exact .advance (.bind ih fun _ _ h => .pure (congrArg (text ++ ·) h))
      · exact .pure rfl

omit hr in
theorem strings_agree : Agree strings strings := by
  refine .position fun _ _ => .bind (.bind (.bounded stringTexts_agree) fun a b h => ?_)
    fun _ _ h => ?_
  · exact .pure (congrArg Expr.string h)
  · exact .previous fun _ _ => .pure (erase_congr h _ _)

theorem parenthesized_agree : Agree (parenthesized rules) (parenthesized rules) :=
  .expect fun _ _ => .bind ((hr .expression).withColonSeparating _) fun _ _ h =>
    .expect fun _ _ => .pure h

/-- The rule of a first token is the same wherever the token stands. -/
theorem compound_agree (t : Token) : Agree (compound rules t) (compound rules t) := by
  unfold compound
  split
  · exact strings_agree
  · exact parenthesized_agree hr
  · exact tuple_agree hr
  · exact enclosed_agree (listBody_agree hr) _ _
  · exact enclosed_agree (binaryBody_agree hr) _ _
  · exact hash_agree hr rfl
  · exact block_agree hr
  · exact caseExpr_agree hr
  · exact ifExpr_agree hr
  · exact receiveExpr_agree hr
  · exact tryExpr_agree hr
  · exact funExpr_agree hr
  · exact macroUse_agree hr
  · exact agree_unexpected _

theorem primary_agree : Agree (primary rules) (primary rules) := by
  refine .next? (agree_unexpected _) fun t s s' => ?_
  dsimp only
  cases simple? t with
  | none => exact compound_agree hr t
  | some e => exact .advance (.pure (erase_congr rfl _ _))

theorem remoteCall_agree {e e' : Located Expr} (he : erase e = erase e') :
    Agree (remoteCall rules e) (remoteCall rules e') := by
  refine .advance (.bind (hr .primary) fun f f' hf => .check ?_ (agree_unexpected _))
  refine .bind (callArgs_agree hr) fun as bs h => .previous fun _ _ => .pure ?_
  refine erase_congr ?_ _ _
  simp only [Expr.eraseParts, erase_expr, he, hf, h]

/-- The operand in front may differ in its spans. -/
theorem postfixes_agree (n : Nat) {e e' : Located Expr} (he : erase e = erase e') :
    Agree (postfixes rules n e) (postfixes rules n e') := by
  induction n generalizing e e' with
  | zero => exact .pure he
  | succ n ih =>
      refine .peek? fun t => ?_
      split
      · refine .bind (callArgs_agree hr) fun as bs h => .previous fun _ _ => ih ?_
        exact erase_congr (by simp only [Expr.eraseParts, he, h]) _ _
      · exact .colonSeparates fun b =>
          .ite (.pure he) (.bind (remoteCall_agree hr he) fun _ _ h => ih h)
      · exact .bind (hash_agree hr (by simp [he])) fun _ _ h => ih h
      · exact .pure he

theorem unary_agree : Agree (unary rules) (unary rules) := by
  refine .peek? fun t => ?_
  cases t.bind UnaryOp.ofToken? with
  | none => exact .bind (primary_agree hr) fun e f h => .bounded fun n => postfixes_agree hr n h
  | some op =>
      refine .position fun _ _ => .advance (.bind (hr .unary) fun e f h => .pure ?_)
      exact erase_congr (by simp only [Expr.eraseParts, h]) _ _

omit hr in
theorem erase_join {a b a' b' : Located Expr} (ha : erase a = erase a') (hb : erase b = erase b')
    (op : Option BinaryOp) : erase (join a b op) = erase (join a' b' op) := by
  cases op <;> exact erase_congr (by simp only [Expr.eraseParts, ha, hb]) _ _

/-- The left operand may differ in its spans. -/
theorem operations_agree (minimum n : Nat) {e e' : Located Expr} (he : erase e = erase e')
    (comparison : Bool) :
    Agree (operations rules minimum n e comparison) (operations rules minimum n e' comparison) := by
  induction n generalizing e e' comparison with
  | zero => exact .pure he
  | succ n ih =>
      refine .next? (.pure he) fun t s s' => ?_
      dsimp only
      cases connective? t with
      | none => exact .pure he
      | some op =>
          refine .ite (.pure he) (.ite (.fail _ _ _) (.advance ?_))
          exact .bind (hr _) fun _ _ h => ih (erase_join he h op) _

theorem binary_agree (minimum : Nat) : Agree (binary rules minimum) (binary rules minimum) :=
  .bind (unary_agree hr) fun _ _ h => .bounded fun n => operations_agree hr minimum n h false

theorem expression_agree : Agree (expression rules) (expression rules) := by
  refine .check (.expect fun _ _ => .bind (hr .expression) fun e f h => .pure ?_)
    (binary_agree hr 0)
  exact erase_congr (by simp only [Expr.eraseParts, h]) _ _

/-- Every rule agrees with itself on other spans, if the rules that it calls do. -/
theorem step_agree (nt : Nonterminal) : Agree (step rules nt) (step rules nt) := by
  cases nt with
  | expression => exact expression_agree hr
  | binary minimum => exact binary_agree hr minimum
  | unary => exact unary_agree hr
  | primary => exact primary_agree hr

end

/-- The calls that are allowed are counted alike. -/
theorem within_agree (n : Nat) (nt : Nonterminal) : Agree (within n nt) (within n nt) := by
  induction n generalizing nt with
  | zero => exact agree_unexpected _
  | succ n ih => exact step_agree ih nt

theorem withRules_agree {α : Type} [Erasable α] {p : Rules Parser → Parser α}
    (h : ∀ rules : Rules Parser, (∀ nt, Agree (rules nt) (rules nt)) → Agree (p rules) (p rules)) :
    Agree (withRules p) (withRules p) := .bounded fun n => h _ (within_agree n)

/-! ### Forms -/

section

variable {rules : Rules Parser} (hr : ∀ nt, Agree (rules nt) (rules nt))

include hr

theorem functionClause_agree : Agree (functionClause rules) (functionClause rules) := by
  refine .expectAtom fun name _ _ => .bind (argPatterns_agree hr) fun ps qs h => ?_
  refine .bind (clauseRest_agree hr h) fun c d hcd => .previous fun _ _ => .pure ?_
  change (_, Located.mk (erase c) Span.nowhere) = (_, Located.mk (erase d) Span.nowhere)
  rw [hcd]
  rfl

omit hr in
theorem length_of_erase {α : Type} [Erasable α] {as bs : List α} (h : erase as = erase bs) :
    as.length = bs.length := by
  have hlength := congrArg List.length h
  simpa [erase] using hlength

/-- Name and arity of the clause before do not depend on spans. -/
theorem sameFunctionClause_agree (first : String × Nat) :
    Agree (sameFunctionClause rules first) (sameFunctionClause rules first) := by
  refine .bind (functionClause_agree hr) fun a b h => ?_
  obtain ⟨⟨n, _⟩, c⟩ := a
  obtain ⟨⟨n', _⟩, c'⟩ := b
  obtain ⟨hn, hc⟩ := Prod.ext_iff.mp h
  obtain rfl : n = n' := congrArg Located.node hn
  have hpatterns : erase c.node.patterns = erase c'.node.patterns :=
    congrArg (fun d : Located Clause => d.node.patterns) hc
  simp only [length_of_erase hpatterns]
  split
  · exact .bind (.fail _ _ _) fun _ _ _ => .pure hc
  · exact .pure hc

theorem functionForm_agree : Agree (functionForm rules) (functionForm rules) := by
  refine .bind (functionClause_agree hr) fun a b h => ?_
  obtain ⟨⟨n, s⟩, c⟩ := a
  obtain ⟨⟨n', s'⟩, c'⟩ := b
  obtain ⟨hn, hc⟩ := Prod.ext_iff.mp h
  obtain rfl : n = n' := congrArg Located.node hn
  have hpatterns : erase c.node.patterns = erase c'.node.patterns :=
    congrArg (fun d : Located Clause => d.node.patterns) hc
  dsimp only
  rw [length_of_erase hpatterns]
  refine .bind (.bounded ((sameFunctionClause_agree hr _).more _)) fun cs ds hcs => ?_
  refine .previous fun _ _ => .pure ?_
  change Located.mk (Form.function (erase _) _ (erase (c :: cs))) _ =
    Located.mk (Form.function (erase _) _ (erase (c' :: ds))) _
  rw [erase_cons, erase_cons, hcs, show erase c = erase c' from hc]
  rfl

omit hr in
theorem attributeName_agree : Agree attributeName attributeName := by
  refine .next? (agree_unexpected _) fun t s s' => ?_
  cases t with
  | atom name => exact .advance (.pure rfl)
  | _ => exact .ite (.advance (.pure rfl)) (agree_unexpected _)

omit hr in
/-- Raw tokens are kept without their spans. -/
theorem rawTokens_agree : Agree rawTokens rawTokens := by
  rintro m ⟨s, ts⟩ ⟨s', us⟩ hcd
  change erase (rawRun s ts).1 = erase (rawRun s' us).1 ∧ (rawRun s ts).2.Alike (rawRun s' us).2
  have hnodes : ts.map Located.node = us.map Located.node := hcd
  induction ts generalizing s s' us with
  | nil =>
      obtain rfl : us = [] := by simpa using hnodes
      exact ⟨rfl, hcd⟩
  | cons t ts ih =>
      obtain ⟨k, span⟩ := t
      obtain _ | ⟨⟨k', span'⟩, us⟩ := us
      · cases hnodes
      obtain ⟨rfl, htail⟩ : k = k' ∧ ts.map Located.node = us.map Located.node := by
        simpa using hnodes
      by_cases hk : k = .terminator
      · simp only [rawRun, if_pos hk]
        exact ⟨True.intro, hcd⟩
      · obtain ⟨htokens, hrest⟩ := ih span span' us htail htail
        simp only [rawRun, if_neg hk, erase_cons]
        exact ⟨congrArg _ htokens, hrest⟩

theorem attributeArgs_agree : Agree (attributeArgs rules) (attributeArgs rules) :=
  .eat (.eat (.pure rfl) (.bind (exprs_agree hr) fun _ _ h => .expect fun _ _ => .pure h))
    (.pure rfl)

theorem attributeValue_agree (name : String) :
    Agree (attributeValue rules name) (attributeValue rules name) := by
  refine .ite (.bind rawTokens_agree fun ts us h => .pure ?_)
    (.bind (attributeArgs_agree hr) fun as bs h => .pure ?_)
  · have htokens : ts = us := by simpa [erase] using h
    rw [htokens]
  · exact congrArg AttributeValue.exprs h

theorem attributeForm_agree : Agree (attributeForm rules) (attributeForm rules) := by
  refine .expect fun _ _ => .bind attributeName_agree fun n n' hn => ?_
  obtain ⟨name, s⟩ := n
  obtain ⟨name', s'⟩ := n'
  obtain rfl : name = name' := congrArg Located.node hn
  refine .bind (attributeValue_agree hr name) fun v v' hv => .previous fun _ _ => .pure ?_
  change Located.mk (Form.attribute (erase _) (erase v)) _ =
    Located.mk (Form.attribute (erase _) (erase v')) _
  rw [hv, hn]

end

theorem declaration_agree : Agree declaration declaration :=
  .check ((withRules_agree fun _ => attributeForm_agree).inContext _)
    ((withRules_agree fun _ => functionForm_agree).inContext _)

theorem form_agree : Agree form form :=
  .bind declaration_agree fun _ _ h => .expect fun _ _ => .bind agree_expectEnd fun _ _ _ => .pure h

theorem expressionSequence_agree : Agree expressionSequence expressionSequence := by
  refine .inContext (.position fun _ _ =>
    .bind (withRules_agree fun _ => exprs_agree) fun es fs h => ?_) _
  refine .expect fun _ _ => .bind agree_expectEnd fun _ _ _ => .pure ?_
  exact erase_congr (by simp only [Expr.eraseParts, h]) _ _

/-! ### Runs on whole token sequences -/

/-- Results that differ in their spans at most. -/
def SameResult {α : Type} [Erasable α] : Except GrammarError α → Except GrammarError α → Prop
  | .ok a, .ok b => erase a = erase b
  | .error x, .error y => x.context = y.context ∧ x.fault = y.fault
  | _, _ => False

section

variable {α β : Type} [Erasable α] [Erasable β] {ts us : List (Located Token)}

/-- Equal up to spans, one step after the other. -/
theorem SameResult.bind {x y : Except GrammarError α} {f g : α → Except GrammarError β}
    (h : SameResult x y) (hf : ∀ a b, erase a = erase b → SameResult (f a) (g b)) :
    SameResult (x >>= f) (y >>= g) := by
  cases x with
  | error x =>
      cases y with
      | error y => exact h
      | ok b => exact h.elim
  | ok a =>
      cases y with
      | error y => exact h.elim
      | ok b => exact hf a b h

/-- A whole run on the same tokens, wherever they stand. -/
theorem run_same {p : Parser α} (h : Agree p p)
    (hnodes : ts.map Located.node = us.map Located.node) :
    SameResult (p.run ts) (p.run us) := by
  have hsame := h ⟨.expression, false⟩ ⟨.nowhere, ts⟩ ⟨.nowhere, us⟩ hnodes
  unfold run
  rcases hp : p ⟨.expression, false⟩ ⟨.nowhere, ts⟩ with x | ⟨a, c⟩ <;>
    rcases hq : p ⟨.expression, false⟩ ⟨.nowhere, us⟩ with y | ⟨b, d⟩ <;> rw [hp, hq] at hsame
  · exact hsame
  · exact hsame.elim
  · exact hsame.elim
  · exact hsame.1

/-- Tokens are cut at the same places, wherever they stand. -/
theorem cutFrom_same (depth : Int32) {started started' : List (Located Token)}
    (hstarted : started.map Located.node = started'.map Located.node)
    (hnodes : ts.map Located.node = us.map Located.node) :
    (cutFrom depth started ts).1.map (List.map Located.node) =
        (cutFrom depth started' us).1.map (List.map Located.node) ∧
      (cutFrom depth started ts).2.map Located.node =
        (cutFrom depth started' us).2.map Located.node := by
  induction ts generalizing depth started started' us with
  | nil =>
      obtain rfl : us = [] := by simpa using hnodes.symm
      simp [cutFrom, hstarted]
  | cons t ts ih =>
      obtain ⟨u, us, rfl, htu, htail⟩ := List.map_eq_cons_iff.mp hnodes.symm
      have hmore : (t :: started).map Located.node = (u :: started').map Located.node := by
        simp [htu, hstarted]
      by_cases hcut : (t.node = .terminator && depth ≤ 0) = true
      · obtain ⟨hparts, hrest⟩ := ih 0 (List.map_nil.trans List.map_nil.symm) htail.symm
        simp only [cutFrom, htu, hcut, if_true]
        exact ⟨by simp [hparts, htu, hstarted], hrest⟩
      · simp only [cutFrom, htu, hcut, Bool.false_eq_true, if_false]
        exact ih _ hmore htail.symm

/-- The parts are read one after the other, with the same result each. -/
theorem mapM_same {p : Parser α} (h : Agree p p) {parts parts' : List (List (Located Token))}
    (hparts : parts.map (List.map Located.node) = parts'.map (List.map Located.node)) :
    SameResult (parts.mapM p.run) (parts'.mapM p.run) := by
  induction parts generalizing parts' with
  | nil =>
      obtain rfl : parts' = [] := by simpa using hparts.symm
      exact rfl
  | cons part parts ih =>
      obtain ⟨part', parts', rfl, hhead, htail⟩ := List.map_eq_cons_iff.mp hparts.symm
      rw [List.mapM_cons, List.mapM_cons]
      refine (run_same h hhead.symm).bind fun a b hab => (ih htail.symm).bind fun as bs habs => ?_
      change erase (a :: as) = erase (b :: bs)
      rw [erase_cons, erase_cons, hab, habs]

end

end Grammar

/-- The forms of a text depend on its tokens alone, but for their spans. -/
theorem parseForms_same {ts us : List (Located Token)}
    (hnodes : ts.map Located.node = us.map Located.node) :
    Grammar.SameResult (parseForms ts) (parseForms us) := by
  obtain ⟨hparts, hrest⟩ := Grammar.cutFrom_same 0 (List.map_nil.trans List.map_nil.symm) hnodes
  have hlast := congrArg List.getLast? hrest
  unfold parseForms Grammar.cutForms
  rcases hts : (Grammar.cutFrom 0 [] ts).2.getLast? with _ | last <;>
    rcases hus : (Grammar.cutFrom 0 [] us).2.getLast? with _ | last' <;>
    simp only [List.getLast?_map, hts, hus, Option.map_none, Option.map_some, reduceCtorEq] at hlast
  · simp only [hts, hus]
    exact Grammar.mapM_same Grammar.form_agree hparts
  · simp only [hts, hus]
    exact ⟨rfl, rfl⟩

/-- A sequence of expressions depends on its tokens alone, but for its spans. -/
theorem parseExpressionSequence_same {ts us : List (Located Token)}
    (hnodes : ts.map Located.node = us.map Located.node) :
    Grammar.SameResult (parseExpressionSequence ts) (parseExpressionSequence us) :=
  Grammar.run_same Grammar.expressionSequence_agree hnodes

end ErlangFragment
