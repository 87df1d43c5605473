import ErlangFragment.Proofs.Grammar.Derivation

/-! Soundness of the expression grammar: whatever its rules read has a derivation. -/

namespace ErlangFragment.Grammar

open ErlangFragment.Parser ErlangFragment.Reader

/-- Whatever the parser reads is derived as the phrase. -/
def Sound (ph : Phrase) (p : Parser ph.Result) : Prop :=
  ∀ ⦃m c r c'⦄, p m c = .ok (r, c') →
    ∃ toks, c.Passes toks c' ∧ Derivation m.colonSeparates ph r toks c'.next

/-- Where errors are said to be does not matter to what is read. -/
theorem Sound.inContext {ph : Phrase} {p : Parser ph.Result} (h : Sound ph p)
    (context : GrammarContext) : Sound ph (inContext context p) :=
  fun m _ _ _ hp => h (m := { m with context := context }) hp

/-- Each round of the loop over further elements is an element that is derived. -/
theorem more_sound {ph : Phrase} {p : Parser ph.Result} (hp : Sound ph p) (s : Token) {m : Mode}
    {c c' : Cursor} {r : List ph.Result} {n : Nat} (hn : c.rest.length ≤ n)
    (h : more s p n m c = .ok (r, c')) :
    ∃ toks, c.Passes toks c' ∧ Derivation m.colonSeparates (.more s ph) r toks c'.next := by
  induction n generalizing c r with
  | zero =>
      obtain ⟨rfl, rfl⟩ := pure_eq_ok.mp h
      have hnext := Cursor.next_eq_none hn
      exact ⟨[], .refl _, .moreNil (by simp [hnext])⟩
  | succ n ih =>
      rw [more, eat_bind_eq_ok] at h
      rcases h with ⟨t, c₁, rfl, ht, h⟩ | ⟨hne, h⟩
      · simp only [bind_eq_ok, pure_eq_ok] at h
        obtain ⟨a, c₂, ha, as, c₃, has, rfl, rfl⟩ := h
        obtain ⟨ts, hts, da⟩ := hp ha
        have hlen : c₂.rest.length ≤ n := by
          have h₁ := ht.rest_lt
          have h₂ := hts.length_eq
          omega
        obtain ⟨us, hus, das⟩ := ih hlen has
        rw [hus.next_eq] at da
        exact ⟨_, ht.cons (hts.trans hus), .moreCons rfl da das⟩
      · obtain ⟨rfl, rfl⟩ := pure_eq_ok.mp h
        exact ⟨[], .refl _, .moreNil hne⟩

/-- What is read as a separated sequence is derived as one, if its elements are. -/
theorem Sound.separated {ph : Phrase} {p : Parser ph.Result} (hp : Sound ph p) (s : Token) :
    Sound (.separated s ph) (separated s p) := by
  intro m c r c' h
  simp only [Reader.separated, bind_eq_ok, pure_eq_ok] at h
  obtain ⟨a, c₁, ha, as, c₂, has, rfl, rfl⟩ := h
  obtain ⟨ts, hts, da⟩ := hp ha
  rw [bounded_apply] at has
  obtain ⟨us, hus, das⟩ := more_sound hp s (Nat.le_refl _) has
  rw [hus.next_eq] at da
  exact ⟨_, hts.trans hus, .separated da das⟩

/-- What is read in braces is derived, if each field is. -/
theorem Sound.braced {ph : Phrase} {p : Parser ph.Result} (hp : Sound ph p) :
    Sound (.braced ph) (braced p) := by
  intro m c r c' h
  rw [Grammar.braced, bracketed_eq_ok] at h
  obtain ⟨l, c₁, hl, pl, ⟨rfl, u, hu, pu⟩ | ⟨-, c₂, u, ha, hu, pu⟩⟩ := h
  · exact ⟨_, pl.cons pu, .bracedNil hl hu⟩
  · obtain ⟨ts, hts, d⟩ := hp.separated _ ha
    rw [pu.next_eq] at d
    exact ⟨_, pl.cons (hts.trans pu), .braced hl hu d⟩

/-- What is read as an optional part is derived as one, or there is none. -/
theorem Sound.part {ph : Phrase} {p : Parser ph.Result} (hp : Sound ph p) (w : Keyword)
    (s : Token) :
    Sound (.part w s ph) (part w (Reader.separated s p)) := by
  intro m c r c' h
  rw [Grammar.part, eat_bind_eq_ok] at h
  rcases h with ⟨t, c₁, ht, pt, h⟩ | ⟨hne, h⟩
  · obtain ⟨ts, hts, d⟩ := hp.separated _ h
    exact ⟨_, pt.cons hts, .partSome ht d⟩
  · obtain ⟨rfl, rfl⟩ := pure_eq_ok.mp h
    exact ⟨[], .refl _, .partNone hne⟩

section

variable {rules : Rules Parser} (hr : ∀ nt, Sound (.rule nt) (rules nt))
include hr

theorem exprs_sound : Sound .exprs (exprs rules) := (hr .expression).separated _

/-! ### Clauses -/

theorem argPatterns_sound : Sound .argPatterns (argPatterns rules) := by
  intro m c r c' h
  rw [argPatterns, bracketed_eq_ok] at h
  obtain ⟨l, c₁, hl, pl, ⟨rfl, u, hu, pu⟩ | ⟨-, c₂, u, ha, hu, pu⟩⟩ := h
  · exact ⟨_, pl.cons pu, .argPatternsNil hl hu⟩
  · obtain ⟨ts, hts, d⟩ := (exprs_sound hr).inContext _ ha
    rw [pu.next_eq] at d
    exact ⟨_, pl.cons (hts.trans pu), .argPatterns hl hu d⟩

theorem callArgs_sound : Sound .arguments (callArgs rules) := by
  intro m c r c' h
  rw [callArgs, bracketed_eq_ok] at h
  obtain ⟨l, c₁, hl, pl, ⟨rfl, u, hu, pu⟩ | ⟨-, c₂, u, ha, hu, pu⟩⟩ := h
  · exact ⟨_, pl.cons pu, .argumentsNil hl hu⟩
  · rw [withColonSeparating_apply] at ha
    obtain ⟨ts, hts, d⟩ := exprs_sound hr ha
    rw [pu.next_eq] at d
    exact ⟨_, pl.cons (hts.trans pu), .arguments hl hu d⟩

theorem guardSequence_sound : Sound .guardSequence (guardSequence rules) :=
  ((exprs_sound hr).separated _).inContext _

/-- What is read as guards and a body is derived behind the patterns. -/
theorem clauseRest_sound (patterns : List (Located Expr)) :
    Sound (.clauseRest patterns) (clauseRest rules patterns) := by
  intro m c r c' h
  rw [clauseRest, guards, bind_eq_ok] at h
  obtain ⟨gs, c₁, hg, h⟩ := h
  rw [expect_bind_eq_ok] at h
  obtain ⟨a, c₂, ha, pa, h⟩ := h
  simp only [bind_eq_ok, pure_eq_ok] at h
  obtain ⟨body, c₃, hb, rfl, rfl⟩ := h
  obtain ⟨us, hus, db⟩ := exprs_sound hr hb
  rw [eat_bind_eq_ok] at hg
  rcases hg with ⟨w, c₄, hw, pw, hg⟩ | ⟨-, hg⟩
  · obtain ⟨ts, hts, dg⟩ := guardSequence_sound hr hg
    rw [pa.next_eq] at dg
    exact ⟨_, pw.cons (hts.trans (pa.cons hus)), .guarded hw dg ha db⟩
  · obtain ⟨rfl, rfl⟩ := pure_eq_ok.mp hg
    exact ⟨_, pa.cons hus, .unguarded ha db⟩

theorem caseClause_sound : Sound .caseClause (caseClause rules) := by
  intro m c r c' h
  rw [caseClause, inContext_apply, spanned_eq_ok, bind_eq_ok] at h
  obtain ⟨⟨p, c₁, hp, hc⟩, hs⟩ := h
  obtain ⟨ts, hts, dp⟩ := hr .expression hp
  obtain ⟨us, hus, dc⟩ := clauseRest_sound hr _ hc
  rw [hus.next_eq] at dp
  rw [(hts.trans hus).extent_eq (by simp [dc.clauseRest_ne_nil])] at hs
  cases r
  cases hs
  exact ⟨_, hts.trans hus, .caseClause dp dc⟩

/-- What is filled in for a class or a stacktrace is derived from no token. -/
theorem catchPatterns_sound : Sound .catchPatterns (catchPatterns rules) := by
  intro m c r c' h
  rw [catchPatterns, bind_eq_ok] at h
  obtain ⟨e, c₁, he, h⟩ := h
  obtain ⟨ts, hts, de⟩ := hr .expression he
  rw [eat_bind_eq_ok] at h
  rcases h with ⟨t, c₂, ht, pt, h⟩ | ⟨hne, h⟩
  · rw [bind_eq_ok] at h
    obtain ⟨f, c₃, hf, h⟩ := h
    obtain ⟨us, hus, df⟩ := hr .expression hf
    rw [pt.next_eq] at de
    rw [eat_bind_eq_ok] at h
    rcases h with ⟨u, c₄, hu, pu, h⟩ | ⟨hne, h⟩
    · simp only [bind_eq_ok, pure_eq_ok] at h
      obtain ⟨g, c₅, hg, rfl, rfl⟩ := h
      obtain ⟨vs, hvs, dg⟩ := hr .expression hg
      rw [pu.next_eq] at df
      exact ⟨_, hts.trans (pt.cons (hus.trans (pu.cons hvs))), .classReasonStack de ht df hu dg⟩
    · obtain ⟨rfl, rfl⟩ := pure_eq_ok.mp h
      exact ⟨_, hts.trans (pt.cons hus), .classReason de ht df hne⟩
  · obtain ⟨rfl, rfl⟩ := pure_eq_ok.mp h
    exact ⟨_, hts, .reason de hne⟩

theorem catchClause_sound : Sound .catchClause (catchClause rules) := by
  intro m c r c' h
  rw [catchClause, inContext_apply, spanned_eq_ok, bind_eq_ok] at h
  obtain ⟨⟨ps, c₁, hp, hc⟩, hs⟩ := h
  rw [withColonSeparating_apply] at hp
  obtain ⟨ts, hts, dp⟩ := catchPatterns_sound hr hp
  obtain ⟨us, hus, dc⟩ := clauseRest_sound hr _ hc
  rw [hus.next_eq] at dp
  rw [(hts.trans hus).extent_eq (by simp [dc.clauseRest_ne_nil])] at hs
  cases r
  cases hs
  exact ⟨_, hts.trans hus, .catchClause dp dc⟩

theorem funClause_sound (name : Option String) :
    Sound (.funClause name) (funClause rules name) := by
  intro m c r c' h
  rw [funClause, inContext_apply, spanned_eq_ok, bind_eq_ok] at h
  obtain ⟨⟨_, c₁, hn, h⟩, hs⟩ := h
  rw [bind_eq_ok] at h
  obtain ⟨ps, c₂, hp, hc⟩ := h
  obtain ⟨ts, hts, dp⟩ := argPatterns_sound hr hp
  obtain ⟨us, hus, dc⟩ := clauseRest_sound hr _ hc
  rw [hus.next_eq] at dp
  cases name with
  | none =>
      obtain ⟨-, rfl⟩ := pure_eq_ok.mp hn
      rw [(hts.trans hus).extent_eq (by simp [dc.clauseRest_ne_nil])] at hs
      cases r
      cases hs
      exact ⟨_, hts.trans hus, .funClause dp dc⟩
  | some v =>
      rw [repeatedName, peek?_bind] at hn
      by_cases hv : c.next = some (.var v)
      · obtain ⟨t, c₃, ht, pt⟩ := Cursor.next_eq_some_iff.mp hv
        rw [if_pos hv, advance_eq_ok pt] at hn
        subst hn
        rw [(pt.cons (hts.trans hus)).extent_eq (by simp)] at hs
        cases r
        cases hs
        exact ⟨_, pt.cons (hts.trans hus), .namedFunClause ht dp dc⟩
      · rw [if_neg hv] at hn
        exact absurd hn unexpected_ne_ok

theorem ifClause_sound : Sound .ifClause (ifClause rules) := by
  intro m c r c' h
  rw [ifClause, inContext_apply, spanned_eq_ok, bind_eq_ok] at h
  obtain ⟨⟨gs, c₁, hg, h⟩, hs⟩ := h
  rw [expect_bind_eq_ok] at h
  obtain ⟨a, c₂, ha, pa, h⟩ := h
  simp only [bind_eq_ok, pure_eq_ok] at h
  obtain ⟨body, c₃, hb, hr', rfl⟩ := h
  obtain ⟨ts, hts, dg⟩ := guardSequence_sound hr hg
  obtain ⟨us, hus, db⟩ := exprs_sound hr hb
  rw [pa.next_eq] at dg
  rw [(hts.trans (pa.cons hus)).extent_eq (by simp)] at hs
  cases r
  cases hs
  cases hr'
  exact ⟨_, hts.trans (pa.cons hus), .ifClause dg ha db⟩

/-! ### Fields, qualifiers and segments -/

theorem mapField_sound : Sound .mapField (mapField rules) := by
  intro m c r c' h
  simp only [mapField, bind_eq_ok, pure_eq_ok] at h
  obtain ⟨k, c₁, hk, op, c₂, ho, v, c₃, hv, rfl, rfl⟩ := h
  obtain ⟨ts, hts, dk⟩ := hr .expression hk
  obtain ⟨us, hus, dv⟩ := hr .expression hv
  rw [fieldOperator, eat_bind_eq_ok] at ho
  rcases ho with ⟨t, c₄, ht, pt, ho⟩ | ⟨-, ho⟩
  · obtain ⟨rfl, rfl⟩ := pure_eq_ok.mp ho
    rw [pt.next_eq] at dk
    exact ⟨_, hts.trans (pt.cons hus), .assocField dk ht dv⟩
  · rw [eat_bind_eq_ok] at ho
    rcases ho with ⟨t, c₄, ht, pt, ho⟩ | ⟨-, ho⟩
    · obtain ⟨rfl, rfl⟩ := pure_eq_ok.mp ho
      rw [pt.next_eq] at dk
      exact ⟨_, hts.trans (pt.cons hus), .exactField dk ht dv⟩
    · exact absurd ho unexpected_ne_ok

theorem recordField_sound : Sound .recordField (recordField rules) := by
  intro m c r c' h
  rw [recordField, bind_eq_ok] at h
  obtain ⟨n, c₁, hn, h⟩ := h
  rw [expect_bind_eq_ok] at h
  obtain ⟨t, c₂, ht, pt, h⟩ := h
  simp only [bind_eq_ok, pure_eq_ok] at h
  obtain ⟨v, c₃, hv, rfl, rfl⟩ := h
  obtain ⟨u, hu, hs, pu⟩ := fieldName_eq_ok.mp hn
  obtain ⟨us, hus, dv⟩ := hr .expression hv
  obtain ⟨name, _⟩ := n
  cases hs
  exact ⟨_, pu.cons (pt.cons hus), .recordField hu ht dv⟩

theorem qualifier_sound : Sound .qualifier (qualifier rules) := by
  intro m c r c' h
  rw [qualifier, bind_eq_ok] at h
  obtain ⟨e, c₁, he, h⟩ := h
  obtain ⟨ts, hts, de⟩ := hr .expression he
  rw [eat_bind_eq_ok] at h
  rcases h with ⟨t, c₂, ht, pt, h⟩ | ⟨hne, h⟩
  · simp only [bind_eq_ok, pure_eq_ok] at h
    obtain ⟨s, c₃, hs, rfl, rfl⟩ := h
    obtain ⟨us, hus, ds⟩ := hr .expression hs
    rw [pt.next_eq] at de
    exact ⟨_, hts.trans (pt.cons hus), .generator de ht ds⟩
  · rw [eat_bind_eq_ok] at h
    rcases h with ⟨t, c₂, ht, pt, h⟩ | ⟨hne', h⟩
    · simp only [bind_eq_ok, pure_eq_ok] at h
      obtain ⟨s, c₃, hs, rfl, rfl⟩ := h
      obtain ⟨us, hus, ds⟩ := hr .expression hs
      rw [pt.next_eq] at de
      exact ⟨_, hts.trans (pt.cons hus), .binaryGenerator de ht ds⟩
    · obtain ⟨rfl, rfl⟩ := pure_eq_ok.mp h
      exact ⟨_, hts, .filter de hne hne'⟩

theorem qualifiers_sound : Sound .qualifiers (qualifiers rules) :=
  ((qualifier_sound hr).separated _).inContext _

omit hr in
theorem segmentType_sound : Sound .segmentType segmentType := by
  intro m c r c' h
  rw [segmentType, bind_eq_ok] at h
  obtain ⟨n, c₁, hn, h⟩ := h
  obtain ⟨t, ht, -, pt⟩ := expectAtom_eq_ok.mp hn
  rw [eat_bind_eq_ok] at h
  rcases h with ⟨u, c₂, hu, pu, h⟩ | ⟨hne, h⟩
  · obtain ⟨k, v, c₃, hv, pv, rfl, rfl⟩ := segmentTypeArg_eq_ok.mp h
    exact ⟨_, pt.cons (pu.cons pv), .segmentTypeArg ht hu hv⟩
  · obtain ⟨rfl, rfl⟩ := pure_eq_ok.mp h
    exact ⟨_, pt, .segmentType ht hne⟩

theorem segmentValue_sound : Sound .segmentValue (segmentValue rules) := by
  intro m c r c' h
  rw [segmentValue, peek?_bind] at h
  rcases hop : c.next.bind UnaryOp.ofToken? with _ | op <;> rw [hop] at h
  · obtain ⟨ts, hts, de⟩ := hr .primary h
    exact ⟨_, hts, .segmentValue de⟩
  · obtain ⟨t, ht, ho⟩ := Option.bind_eq_some_iff.mp hop
    obtain ⟨u, c₁, rfl, pu⟩ := Cursor.next_eq_some_iff.mp ht
    simp only [position_bind, advance_bind pu, bind_eq_ok, pure_eq_ok] at h
    obtain ⟨e, c₂, he, rfl, rfl⟩ := h
    obtain ⟨ts, hts, de⟩ := hr .primary he
    rw [pu.position_eq]
    exact ⟨_, pu.cons hts, .signedSegmentValue ho de⟩

theorem segmentSize_sound : Sound .segmentSize (segmentSize rules) := by
  intro m c r c' h
  rw [segmentSize, eat_bind_eq_ok] at h
  rcases h with ⟨t, c₁, ht, pt, h⟩ | ⟨hne, h⟩
  · simp only [bind_eq_ok, pure_eq_ok] at h
    obtain ⟨e, c₂, he, rfl, rfl⟩ := h
    obtain ⟨ts, hts, de⟩ := hr .primary he
    exact ⟨_, pt.cons hts, .segmentSize ht de⟩
  · obtain ⟨rfl, rfl⟩ := pure_eq_ok.mp h
    exact ⟨[], .refl _, .segmentSizeNone hne⟩

omit hr in
theorem segmentTypes_sound : Sound .segmentTypes segmentTypes := by
  intro m c r c' h
  rw [segmentTypes, eat_bind_eq_ok] at h
  rcases h with ⟨t, c₁, ht, pt, h⟩ | ⟨hne, h⟩
  · obtain ⟨ts, hts, d⟩ := segmentType_sound.separated _ h
    exact ⟨_, pt.cons hts, .segmentTypes ht d⟩
  · obtain ⟨rfl, rfl⟩ := pure_eq_ok.mp h
    exact ⟨[], .refl _, .segmentTypesNil hne⟩

theorem segment_sound : Sound .segment (segment rules) := by
  intro m c r c' h
  simp only [segment, inContext_apply, bind_eq_ok, pure_eq_ok] at h
  obtain ⟨v, c₁, hv, s, c₂, hs, t, c₃, ht, rfl, rfl⟩ := h
  obtain ⟨ts, hts, dv⟩ := segmentValue_sound hr hv
  obtain ⟨us, hus, ds⟩ := segmentSize_sound hr hs
  obtain ⟨vs, hvs, dt⟩ := segmentTypes_sound ht
  rw [hvs.next_eq] at ds
  rw [hus.next_eq, hvs.next_eq] at dv
  exact ⟨_, hts.trans (hus.trans hvs), .segment dv ds dt⟩

theorem after?_sound : Sound .after (after? rules) := by
  intro m c r c' h
  rw [after?, eat_bind_eq_ok] at h
  rcases h with ⟨t, c₁, ht, pt, h⟩ | ⟨hne, h⟩
  · rw [bind_eq_ok] at h
    obtain ⟨e, c₂, he, h⟩ := h
    rw [expect_bind_eq_ok] at h
    obtain ⟨a, c₃, ha, pa, h⟩ := h
    simp only [bind_eq_ok, pure_eq_ok] at h
    obtain ⟨body, c₄, hb, rfl, rfl⟩ := h
    obtain ⟨ts, hts, de⟩ := hr .expression he
    obtain ⟨us, hus, db⟩ := exprs_sound hr hb
    rw [pa.next_eq] at de
    exact ⟨_, pt.cons (hts.trans (pa.cons hus)), .after ht de ha db⟩
  · obtain ⟨rfl, rfl⟩ := pure_eq_ok.mp h
    exact ⟨[], .refl _, .noAfter hne⟩

/-! ### Primaries -/

theorem tuple_sound : Sound .primary (tuple rules) := by
  intro m c r c' h
  rw [tuple, enclosed_eq_ok] at h
  obtain ⟨l, c₁, c₂, u, hl, pl, h, hu, pu, hs⟩ := h
  rw [check_bind_eq_ok] at h
  obtain ⟨e, _⟩ := r
  cases hs
  rcases h with ⟨-, h⟩ | ⟨-, h⟩
  · obtain ⟨rfl, rfl⟩ := pure_eq_ok.mp h
    exact ⟨_, pl.cons pu, .tupleNil hl hu⟩
  · simp only [bind_eq_ok, pure_eq_ok] at h
    obtain ⟨es, c₃, he, rfl, rfl⟩ := h
    obtain ⟨ts, hts, d⟩ := exprs_sound hr he
    rw [pu.next_eq] at d
    exact ⟨_, pl.cons (hts.trans pu), .tuple hl hu d⟩

/-- A list, with or without a tail, and a comprehension begin alike and are told apart behind the
first element. -/
theorem list_sound :
    Sound .primary (enclosed (.symbol .leftBracket) (.symbol .rightBracket) (listBody rules)) := by
  intro m c r c' h
  rw [enclosed_eq_ok] at h
  obtain ⟨l, c₁, c₂, u, hl, pl, h, hu, pu, hs⟩ := h
  obtain ⟨e, _⟩ := r
  cases hs
  rw [listBody, check_bind_eq_ok] at h
  rcases h with ⟨-, h⟩ | ⟨-, h⟩
  · obtain ⟨rfl, rfl⟩ := pure_eq_ok.mp h
    exact ⟨_, pl.cons pu, .listNil hl hu⟩
  · rw [bind_eq_ok] at h
    obtain ⟨e₁, c₃, he, h⟩ := h
    obtain ⟨ts, hts, de⟩ := hr .expression he
    rw [eat_bind_eq_ok] at h
    rcases h with ⟨p, c₄, hp, pp, h⟩ | ⟨-, h⟩
    · simp only [bind_eq_ok, pure_eq_ok] at h
      obtain ⟨qs, c₅, hq, rfl, rfl⟩ := h
      obtain ⟨us, hus, dq⟩ := qualifiers_sound hr hq
      rw [pp.next_eq] at de
      rw [pu.next_eq] at dq
      exact ⟨_, pl.cons (hts.trans (pp.cons (hus.trans pu))), .listComp hl hu de hp dq⟩
    · rw [bind_eq_ok] at h
      obtain ⟨es, c₄, hes, h⟩ := h
      rw [bounded_apply] at hes
      obtain ⟨us, hus, des⟩ := more_sound (hr .expression) _ (Nat.le_refl _) hes
      rw [hus.next_eq] at de
      rw [eat_bind_eq_ok] at h
      rcases h with ⟨p, c₅, hp, pp, h⟩ | ⟨-, h⟩
      · simp only [bind_eq_ok, pure_eq_ok] at h
        obtain ⟨tail, c₆, ht, rfl, rfl⟩ := h
        obtain ⟨vs, hvs, dt⟩ := hr .expression ht
        have d := Derivation.separated de des
        rw [pp.next_eq] at d
        rw [pu.next_eq] at dt
        exact ⟨_, pl.cons ((hts.trans hus).trans (pp.cons (hvs.trans pu))), .listTail hl hu d hp dt⟩
      · obtain ⟨rfl, rfl⟩ := pure_eq_ok.mp h
        have d := Derivation.separated de des
        rw [pu.next_eq] at d
        exact ⟨_, pl.cons ((hts.trans hus).trans pu), .list hl hu d⟩

/-- A binary and a binary comprehension begin alike and are told apart behind the first segment. -/
theorem binary_literal_sound :
    Sound .primary (enclosed (.symbol .lessLess) (.symbol .greaterGreater) (binaryBody rules)) := by
  intro m c r c' h
  rw [enclosed_eq_ok] at h
  obtain ⟨l, c₁, c₂, u, hl, pl, h, hu, pu, hs⟩ := h
  obtain ⟨e, _⟩ := r
  cases hs
  rw [binaryBody, check_bind_eq_ok] at h
  rcases h with ⟨-, h⟩ | ⟨-, h⟩
  · obtain ⟨rfl, rfl⟩ := pure_eq_ok.mp h
    exact ⟨_, pl.cons pu, .binaryNil hl hu⟩
  · rw [bind_eq_ok] at h
    obtain ⟨⟨v, size, types⟩, c₃, hs, h⟩ := h
    obtain ⟨ts, hts, ds⟩ := segment_sound hr hs
    rw [check_bind_eq_ok] at h
    rcases h with ⟨hp, h⟩ | ⟨-, h⟩
    · obtain ⟨p, c₄, hp, pp⟩ := Cursor.next_eq_some_iff.mp hp
      split at h
      next => exact absurd h fail_ne_ok
      next hplain =>
        obtain ⟨rfl, rfl⟩ : size = none ∧ types = [] := by simpa using hplain
        rw [advance_bind pp] at h
        simp only [bind_eq_ok, pure_eq_ok] at h
        obtain ⟨qs, c₅, hq, rfl, rfl⟩ := h
        obtain ⟨us, hus, dq⟩ := qualifiers_sound hr hq
        rw [pp.next_eq] at ds
        rw [pu.next_eq] at dq
        exact ⟨_, pl.cons (hts.trans (pp.cons (hus.trans pu))), .binaryComp hl hu ds hp dq⟩
    · simp only [bind_eq_ok, pure_eq_ok] at h
      obtain ⟨ss, c₄, hss, rfl, rfl⟩ := h
      rw [bounded_apply] at hss
      obtain ⟨us, hus, dss⟩ := more_sound (segment_sound hr) _ (Nat.le_refl _) hss
      rw [hus.next_eq] at ds
      have d := Derivation.separated ds dss
      rw [pu.next_eq] at d
      exact ⟨_, pl.cons ((hts.trans hus).trans pu), .binaryLiteral hl hu d⟩

theorem block_sound : Sound .primary (block rules) := by
  intro m c r c' h
  rw [block, enclosed_eq_ok] at h
  obtain ⟨l, c₁, c₂, u, hl, pl, h, hu, pu, hs⟩ := h
  obtain ⟨e, _⟩ := r
  cases hs
  simp only [inContext_apply, bind_eq_ok, pure_eq_ok] at h
  obtain ⟨es, c₃, he, rfl, rfl⟩ := h
  obtain ⟨ts, hts, d⟩ := exprs_sound hr he
  rw [pu.next_eq] at d
  exact ⟨_, pl.cons (hts.trans pu), .block hl hu d⟩

theorem caseExpr_sound : Sound .primary (caseExpr rules) := by
  intro m c r c' h
  rw [caseExpr, enclosed_eq_ok] at h
  obtain ⟨l, c₁, c₂, u, hl, pl, h, hu, pu, hs⟩ := h
  obtain ⟨e, _⟩ := r
  cases hs
  rw [bind_eq_ok] at h
  obtain ⟨e, c₃, he, h⟩ := h
  rw [expect_bind_eq_ok] at h
  obtain ⟨o, c₄, ho, po, h⟩ := h
  simp only [bind_eq_ok, pure_eq_ok] at h
  obtain ⟨cs, c₅, hc, rfl, rfl⟩ := h
  obtain ⟨ts, hts, de⟩ := hr .expression he
  obtain ⟨us, hus, dc⟩ := (caseClause_sound hr).separated _ hc
  rw [po.next_eq] at de
  rw [pu.next_eq] at dc
  exact ⟨_, pl.cons (hts.trans (po.cons (hus.trans pu))), .caseExpr hl hu de ho dc⟩

theorem ifExpr_sound : Sound .primary (ifExpr rules) := by
  intro m c r c' h
  rw [ifExpr, enclosed_eq_ok] at h
  obtain ⟨l, c₁, c₂, u, hl, pl, h, hu, pu, hs⟩ := h
  obtain ⟨e, _⟩ := r
  cases hs
  simp only [bind_eq_ok, pure_eq_ok] at h
  obtain ⟨cs, c₃, hc, rfl, rfl⟩ := h
  obtain ⟨ts, hts, d⟩ := (ifClause_sound hr).separated _ hc
  rw [pu.next_eq] at d
  exact ⟨_, pl.cons (hts.trans pu), .ifExpr hl hu d⟩

theorem receiveExpr_sound : Sound .primary (receiveExpr rules) := by
  intro m c r c' h
  rw [receiveExpr, enclosed_eq_ok] at h
  obtain ⟨l, c₁, c₂, u, hl, pl, h, hu, pu, hs⟩ := h
  obtain ⟨e, _⟩ := r
  cases hs
  simp only [bind_eq_ok, pure_eq_ok] at h
  obtain ⟨cs, c₃, hc, a, c₄, ha, rfl, rfl⟩ := h
  obtain ⟨us, hus, da⟩ := after?_sound hr ha
  rw [receiveClauses, check_bind_eq_ok] at hc
  rcases hc with ⟨hafter, hc⟩ | ⟨-, hc⟩
  · obtain ⟨rfl, rfl⟩ := pure_eq_ok.mp hc
    rw [pu.next_eq] at da
    cases a with
    | none =>
        exfalso
        rw [hus.next_eq, pu.next_eq] at hafter
        cases da
        contradiction
    | some a => exact ⟨_, pl.cons (hus.trans pu), .receiveAfter hl hu da⟩
  · obtain ⟨ts, hts, dc⟩ := (caseClause_sound hr).separated _ hc
    rw [hus.next_eq, pu.next_eq] at dc
    rw [pu.next_eq] at da
    exact ⟨_, pl.cons (hts.trans (hus.trans pu)), .receiveExpr hl hu dc da⟩

theorem tryExpr_sound : Sound .primary (tryExpr rules) := by
  intro m c r c' h
  rw [tryExpr, enclosed_eq_ok] at h
  obtain ⟨l, c₁, c₂, u, hl, pl, h, hu, pu, hs⟩ := h
  obtain ⟨e, _⟩ := r
  cases hs
  simp only [bind_eq_ok] at h
  obtain ⟨body, c₃, hb, os, c₄, ho, cs, c₅, hc, after, c₆, ha, h⟩ := h
  split at h
  next => exact absurd h unexpected_ne_ok
  next hne =>
    obtain ⟨rfl, rfl⟩ := pure_eq_ok.mp h
    obtain ⟨ts, hts, db⟩ := exprs_sound hr hb
    obtain ⟨us, hus, dos⟩ := (caseClause_sound hr).part _ _ ho
    obtain ⟨vs, hvs, dcs⟩ := (catchClause_sound hr).part _ _ hc
    obtain ⟨ws, hws, da⟩ := (hr .expression).part _ _ ha
    rw [hus.next_eq, hvs.next_eq, hws.next_eq, pu.next_eq] at db
    rw [hvs.next_eq, hws.next_eq, pu.next_eq] at dos
    rw [hws.next_eq, pu.next_eq] at dcs
    rw [pu.next_eq] at da
    refine ⟨_, pl.cons (hts.trans (hus.trans (hvs.trans (hws.trans pu)))), ?_⟩
    refine .tryExpr hl hu db dos dcs da ?_
    by_cases hcs : cs = []
    · exact .inr (by simpa [hcs] using hne)
    · exact .inl hcs

/-- A reference to a function that is read has a slash and an arity. -/
theorem funArity_eq_ok {start : Span} {module : Option (Located Expr)} {function : Located Expr}
    {m : Mode} {c c' : Cursor} {r : Located Expr}
    (h : funArity rules start module function m c = .ok (r, c')) :
    ∃ s arity ts, s.node = .symbol .slash ∧ c.Passes (s :: ts) c' ∧
      Derivation m.colonSeparates .primary arity ts c'.next ∧
      r = ⟨.funRef module function arity, start.through arity.span⟩ := by
  rw [funArity, expect_bind_eq_ok] at h
  obtain ⟨s, c₁, hs, ps, h⟩ := h
  simp only [bind_eq_ok, pure_eq_ok] at h
  obtain ⟨arity, c₂, ha, rfl, rfl⟩ := h
  obtain ⟨ts, hts, da⟩ := hr .primary ha
  exact ⟨s, arity, ts, hs, ps.cons hts, da, rfl⟩

theorem funExpr_sound : Sound .primary (funExpr rules) := by
  intro m c r c' h
  rw [funExpr, expect_bind_eq_ok] at h
  obtain ⟨l, c₁, hl, pl, h⟩ := h
  rw [peekTwo?_bind] at h
  rcases hk : funKind? (c₁.next, (c₁.rest.drop 1).head?.map Located.node) with _ | name | _ | _ <;>
    rw [hk] at h
  · exact absurd h unexpected_ne_ok
  · simp only [funBody, bind_eq_ok, expect_eq_ok, pure_eq_ok] at h
    obtain ⟨cs, c₂, hc, _, _, ⟨u, hu, rfl, pu⟩, rfl, rfl⟩ := h
    obtain ⟨ts, hts, dc⟩ := (funClause_sound hr name).separated _ hc
    rw [pu.next_eq] at dc
    cases name with
    | none => exact ⟨_, pl.cons (hts.trans pu), .funExpr hl hu dc⟩
    | some name => exact ⟨_, pl.cons (hts.trans pu), .namedFun hl hu dc⟩
  · obtain ⟨name, hname⟩ := funKind?_localReference hk
    simp only [localReference, bind_eq_ok] at h
    obtain ⟨f, c₂, hf, h⟩ := h
    obtain ⟨s, arity, us, hs, hus, da, rfl⟩ := funArity_eq_ok hr h
    obtain ⟨ts, hts, df⟩ := hr .primary hf
    obtain ⟨f, rfl, hfn, rfl⟩ := df.eq_of_simple (hts.next_eq.symm.trans hname) rfl
    exact ⟨_, pl.cons (hts.trans hus), .localReference hl hfn hs da⟩
  · obtain ⟨name, hname⟩ := funKind?_remoteReference hk
    rw [remoteReference, bind_eq_ok] at h
    obtain ⟨module, c₂, hm, h⟩ := h
    rw [expect_bind_eq_ok] at h
    obtain ⟨o, c₃, ho, po, h⟩ := h
    rw [bind_eq_ok] at h
    obtain ⟨f, c₄, hf, h⟩ := h
    obtain ⟨s, arity, us, hs, hus, da, rfl⟩ := funArity_eq_ok hr h
    obtain ⟨vs, hvs, dm⟩ := hr .primary hm
    obtain ⟨ts, hts, df⟩ := hr .primary hf
    rw [hus.next_token] at df
    have hfirst := hvs.next_eq.symm
    rcases hname with hname | hname
    · obtain ⟨n, rfl, hn, rfl⟩ := dm.eq_of_simple (hfirst.trans hname) rfl
      exact ⟨_, pl.cons (hvs.cons (po.cons (hts.trans hus))),
        .remoteReference hl ⟨name, .inl hn⟩ (by rw [hn]; rfl) ho df hs da⟩
    · obtain ⟨n, rfl, hn, rfl⟩ := dm.eq_of_simple (hfirst.trans hname) rfl
      exact ⟨_, pl.cons (hvs.cons (po.cons (hts.trans hus))),
        .remoteReference hl ⟨name, .inr hn⟩ (by rw [hn]; rfl) ho df hs da⟩

theorem macroUse_sound : Sound .primary (macroUse rules) := by
  intro m c r c' h
  rw [macroUse, expect_bind_eq_ok] at h
  obtain ⟨q, c₁, hq, pq, h⟩ := h
  rw [bind_eq_ok] at h
  obtain ⟨name, c₂, hn, h⟩ := h
  obtain ⟨n, hname, pn⟩ := macroName_eq_ok.mp hn
  rw [check_bind_eq_ok] at h
  rcases h with ⟨-, h⟩ | ⟨hne, h⟩
  · rw [bind_eq_ok] at h
    obtain ⟨args, c₃, ha, h⟩ := h
    rw [previous_bind] at h
    obtain ⟨rfl, rfl⟩ := pure_eq_ok.mp h
    obtain ⟨ts, hts, d⟩ := callArgs_sound hr ha
    rw [hts.previous, pn.previous_token]
    exact ⟨_, pq.cons (pn.cons hts), .macroCall hq hname d⟩
  · rw [previous_bind] at h
    obtain ⟨rfl, rfl⟩ := pure_eq_ok.mp h
    rw [pn.previous_token]
    exact ⟨_, pq.cons pn, .macroName hq hname hne⟩

omit hr in
theorem strings_sound {m : Mode} {c c' : Cursor} {r : Located Expr} {s : String}
    (hs : c.next = some (.string s)) (h : (strings : Parser (Located Expr)) m c = .ok (r, c')) :
    ∃ toks, c.Passes toks c' ∧ Derivation m.colonSeparates .primary r toks c'.next := by
  rw [strings, spanned_eq_ok, bind_eq_ok] at h
  obtain ⟨⟨text, c₁, ht, h⟩, hspan⟩ := h
  obtain ⟨toks, texts, hp, hrun, hn, rfl⟩ := stringTexts_eq_ok.mp ht
  obtain ⟨hnode, rfl⟩ := pure_eq_ok.mp h
  have hne : toks ≠ [] := by
    rintro rfl
    exact hn s (hp.next_eq.symm.trans hs)
  rw [hp.extent_eq hne] at hspan
  obtain ⟨e, _⟩ := r
  cases hspan
  cases hnode
  exact ⟨toks, hp, .strings hne hrun hn⟩

theorem parenthesized_sound : Sound .primary (parenthesized rules) := by
  intro m c r c' h
  rw [parenthesized, expect_bind_eq_ok] at h
  obtain ⟨l, c₁, hl, pl, h⟩ := h
  simp only [bind_eq_ok, expect_eq_ok, pure_eq_ok, withColonSeparating_apply] at h
  obtain ⟨e, c₂, he, _, _, ⟨u, hu, rfl, pu⟩, rfl, rfl⟩ := h
  obtain ⟨ts, hts, d⟩ := hr .expression he
  rw [pu.next_eq] at d
  exact ⟨_, pl.cons (hts.trans pu), .parenthesized hl hu d⟩

/-- What `hash` reads: a map, a record, or the name and field of a record. -/
theorem hash_eq_ok {base : Option (Located Expr)} {m : Mode} {c c' : Cursor} {r : Located Expr}
    (h : hash rules base m c = .ok (r, c')) :
    ∃ t, t.node = .symbol .hash ∧
      ((∃ fs ts, c.Passes (t :: ts) c' ∧
          Derivation m.colonSeparates (.braced .mapField) fs ts c'.next ∧
          r = ⟨.map base fs,
            ((base.map Located.span).getD t.span).through (lastSpan t.span ts)⟩) ∨
        (∃ name fs n ts, n.node = .atom name ∧ c.Passes (t :: n :: ts) c' ∧
          Derivation m.colonSeparates (.braced .recordField) fs ts c'.next ∧
          r = ⟨.record base name fs,
            ((base.map Located.span).getD t.span).through (lastSpan n.span ts)⟩) ∨
        (∃ name field n d f, n.node = .atom name ∧ d.node = .symbol .dot ∧ f.node = .atom field ∧
          c.Passes [t, n, d, f] c' ∧
          r = match base with
            | some b => ⟨.recordAccess b name field, b.span.through f.span⟩
            | none => ⟨.recordIndex name field, t.span.through f.span⟩)) := by
  rw [hash, expect_bind_eq_ok] at h
  obtain ⟨t, c₁, ht, pt, h⟩ := h
  refine ⟨t, ht, ?_⟩
  rw [check_bind_eq_ok] at h
  rcases h with ⟨-, h⟩ | ⟨-, h⟩
  · rw [bind_eq_ok] at h
    obtain ⟨fs, c₂, hf, h⟩ := h
    rw [previous_bind] at h
    obtain ⟨rfl, rfl⟩ := pure_eq_ok.mp h
    obtain ⟨ts, hts, d⟩ := (mapField_sound hr).braced.inContext _ hf
    rw [hts.previous, pt.previous_token]
    exact .inl ⟨fs, ts, pt.cons hts, d, rfl⟩
  · rw [bind_eq_ok] at h
    obtain ⟨name, c₂, hn, h⟩ := h
    obtain ⟨n, hn, -, pn⟩ := expectAtom_eq_ok.mp hn
    rw [eat_bind_eq_ok] at h
    rcases h with ⟨d, c₃, hd, pd, h⟩ | ⟨-, h⟩
    · rw [bind_eq_ok] at h
      obtain ⟨field, c₄, hf, h⟩ := h
      obtain ⟨f, hf, hspan, pf⟩ := expectAtom_eq_ok.mp hf
      refine .inr (.inr ⟨name.node, field.node, n, d, f, hn, hd, hf, ?_⟩)
      rw [hspan] at h
      cases base <;> obtain ⟨rfl, rfl⟩ := pure_eq_ok.mp h <;>
        exact ⟨pt.cons (pn.cons (pd.cons pf)), rfl⟩
    · rw [bind_eq_ok] at h
      obtain ⟨fs, c₃, hf, h⟩ := h
      rw [previous_bind] at h
      obtain ⟨rfl, rfl⟩ := pure_eq_ok.mp h
      obtain ⟨ts, hts, d⟩ := (recordField_sound hr).braced.inContext _ hf
      rw [hts.previous, pn.previous_token]
      exact .inr (.inl ⟨name.node, fs, n, ts, hn, pt.cons (pn.cons hts), d, rfl⟩)

theorem hash_none_sound : Sound .primary (hash rules none) := by
  intro m c r c' h
  obtain ⟨t, ht, ⟨fs, ts, hp, d, rfl⟩ | ⟨name, fs, n, ts, hn, hp, d, rfl⟩ |
    ⟨name, field, n, d, f, hn, hd, hf, hp, rfl⟩⟩ := hash_eq_ok hr h
  · exact ⟨_, hp, .map ht d⟩
  · exact ⟨_, hp, .record ht hn d⟩
  · exact ⟨_, hp, .recordIndex ht hn hd hf⟩

/-- What the rule of a first token reads is derived as a primary. -/
theorem compound_sound {t : Token} {m : Mode} {c c' : Cursor} {r : Located Expr}
    (hnext : c.next = some t) (h : compound rules t m c = .ok (r, c')) :
    ∃ toks, c.Passes toks c' ∧ Derivation m.colonSeparates .primary r toks c'.next := by
  unfold compound at h
  split at h
  · exact strings_sound hnext h
  · exact parenthesized_sound hr h
  · exact tuple_sound hr h
  · exact list_sound hr h
  · exact binary_literal_sound hr h
  · exact hash_none_sound hr h
  · exact block_sound hr h
  · exact caseExpr_sound hr h
  · exact ifExpr_sound hr h
  · exact receiveExpr_sound hr h
  · exact tryExpr_sound hr h
  · exact funExpr_sound hr h
  · exact macroUse_sound hr h
  · exact absurd h unexpected_ne_ok

/-- What is read as a primary is derived as one. -/
theorem primary_sound : Sound .primary (primary rules) := by
  intro m c r c' h
  rw [primary, next?_bind] at h
  rcases hn : c.rest.head? with _ | ⟨t, span⟩ <;> rw [hn] at h
  · exact absurd h unexpected_ne_ok
  · obtain ⟨c₁, hp⟩ := Cursor.passes_head hn
    rcases hs : simple? t with _ | e <;> simp only [hs] at h
    · exact compound_sound hr hp.next_token h
    · rw [advance_bind hp] at h
      obtain ⟨rfl, rfl⟩ := pure_eq_ok.mp h
      exact ⟨_, hp, .simple (t := ⟨t, span⟩) hs⟩

/-! ### Operators -/

/-- A call in a module that is read has a function and arguments behind the colon. -/
theorem remoteCall_eq_ok {m : Mode} {c c' : Cursor} {e r : Located Expr}
    (h : remoteCall rules e m c = .ok (r, c')) (hnext : c.next = some (.symbol .colon)) :
    ∃ t f args ts us, t.node = .symbol .colon ∧ c.Passes (t :: (ts ++ us)) c' ∧
      Derivation m.colonSeparates .primary f ts (firstOf us c'.next) ∧
      Derivation m.colonSeparates .arguments args us c'.next ∧
      r = ⟨.call ⟨.remote e f, e.span.through f.span⟩ args,
        (e.span.through f.span).through (lastSpan e.span us)⟩ := by
  obtain ⟨t, c₁, ht, pt⟩ := Cursor.next_eq_some_iff.mp hnext
  rw [remoteCall, advance_bind pt, bind_eq_ok] at h
  obtain ⟨f, c₂, hf, h⟩ := h
  rw [check_bind_eq_ok] at h
  rcases h with ⟨-, h⟩ | ⟨-, h⟩
  · simp only [bind_eq_ok, previous_bind, pure_eq_ok] at h
    obtain ⟨args, c₃, ha, rfl, rfl⟩ := h
    obtain ⟨ts, hts, df⟩ := hr .primary hf
    obtain ⟨us, hus, da⟩ := callArgs_sound hr ha
    rw [hus.next_eq] at df
    rw [hus.previous_of_ne_nil da.arguments_ne_nil e.span]
    exact ⟨t, f, args, ts, us, ht, pt.cons (hts.trans hus), df, da, rfl⟩
  · exact absurd h unexpected_ne_ok

/-- Each round of the loop behind an operand is a postfix that is derived. -/
theorem postfixes_sound {n : Nat} {m : Mode} {c c' : Cursor} {e r : Located Expr}
    (hn : c.rest.length ≤ n) (h : postfixes rules n e m c = .ok (r, c')) :
    ∃ toks, c.Passes toks c' ∧ Derivation m.colonSeparates (.postfixes e) r toks c'.next := by
  induction n generalizing c e with
  | zero =>
      obtain ⟨rfl, rfl⟩ := pure_eq_ok.mp h
      have hnext := Cursor.next_eq_none hn
      exact ⟨[], .refl _, .postfixesNil (by simp [stopsPostfixes, hnext])⟩
  | succ n ih =>
      have shorter {ts c₁} (hts : c.Passes ts c₁) (hne : ts ≠ []) : c₁.rest.length ≤ n :=
        Nat.le_of_lt_succ (Nat.lt_of_lt_of_le (hts.rest_lt_of_ne_nil hne) hn)
      rw [postfixes, peek?_bind] at h
      by_cases hl : c.next = some (.symbol .leftParen)
      · simp only [hl, bind_eq_ok, previous_bind] at h
        obtain ⟨args, c₁, ha, h⟩ := h
        obtain ⟨ts, hts, da⟩ := callArgs_sound hr ha
        rw [hts.previous_of_ne_nil da.arguments_ne_nil e.span] at h
        obtain ⟨us, hus, d⟩ := ih (shorter hts da.arguments_ne_nil) h
        rw [hus.next_eq] at da
        exact ⟨_, hts.trans hus, .call da d⟩
      by_cases hc : c.next = some (.symbol .colon)
      · simp only [hc, colonSeparates_bind] at h
        by_cases hm : m.colonSeparates = true
        · rw [if_pos hm] at h
          obtain ⟨rfl, rfl⟩ := pure_eq_ok.mp h
          exact ⟨[], .refl _, .postfixesNil (by simp [stopsPostfixes, hc, hm])⟩
        · rw [if_neg hm, bind_eq_ok] at h
          obtain ⟨e₁, c₁, hr', h⟩ := h
          obtain ⟨t, f, args, ts, us, ht, hp, df, da, rfl⟩ := remoteCall_eq_ok hr hr' hc
          obtain ⟨vs, hvs, d⟩ := ih (shorter hp (by simp)) h
          rw [hvs.next_eq] at df da
          have hp' := hp.trans hvs
          rw [List.cons_append, List.append_assoc] at hp'
          exact ⟨_, hp', .remoteCall (by simpa using hm) ht df da d⟩
      by_cases hh : c.next = some (.symbol .hash)
      · simp only [hh, bind_eq_ok] at h
        obtain ⟨e₁, c₁, hr', h⟩ := h
        obtain ⟨t, ht, ⟨fs, ts, hp, df, rfl⟩ | ⟨name, fs, k, ts, hk, hp, df, rfl⟩ |
          ⟨name, field, k, o, f, hk, ho, hf, hp, rfl⟩⟩ := hash_eq_ok hr hr'
        · obtain ⟨us, hus, d⟩ := ih (shorter hp (by simp)) h
          rw [hus.next_eq] at df
          exact ⟨_, hp.trans hus, .mapUpdate ht df d⟩
        · obtain ⟨us, hus, d⟩ := ih (shorter hp (by simp)) h
          rw [hus.next_eq] at df
          exact ⟨_, hp.trans hus, .recordUpdate ht hk df d⟩
        · obtain ⟨us, hus, d⟩ := ih (shorter hp (by simp)) h
          exact ⟨_, hp.trans hus, .recordAccess ht hk ho hf d⟩
      · have hstop : (pure e : Parser (Located Expr)) m c = .ok (r, c') := by
          rcases hx : c.next with _ | t <;> rw [hx] at h
          · exact h
          · cases t
            case symbol s => cases s <;> simp_all
            all_goals exact h
        obtain ⟨rfl, rfl⟩ := pure_eq_ok.mp hstop
        exact ⟨[], .refl _, .postfixesNil ⟨hl, hh, fun h => absurd h hc⟩⟩

theorem unary_sound : Sound .unary (unary rules) := by
  intro m c r c' h
  rw [unary, peek?_bind] at h
  rcases hop : c.next.bind UnaryOp.ofToken? with _ | op <;> rw [hop] at h
  · rw [bind_eq_ok] at h
    obtain ⟨e, c₁, he, h⟩ := h
    rw [bounded_apply] at h
    obtain ⟨ts, hts, de⟩ := primary_sound hr he
    obtain ⟨us, hus, d⟩ := postfixes_sound hr (Nat.le_refl _) h
    rw [hus.next_eq] at de
    exact ⟨_, hts.trans hus, .applied de d⟩
  · obtain ⟨t, ht, ho⟩ := Option.bind_eq_some_iff.mp hop
    obtain ⟨u, c₁, rfl, pu⟩ := Cursor.next_eq_some_iff.mp ht
    simp only [position_bind, advance_bind pu, bind_eq_ok, pure_eq_ok] at h
    obtain ⟨e, c₂, he, rfl, rfl⟩ := h
    obtain ⟨ts, hts, de⟩ := hr .unary he
    rw [pu.position_eq]
    exact ⟨_, pu.cons hts, .unaryOp ho de⟩

/-- Each round of the loop over operators is an operation that is derived. -/
theorem operations_sound {minimum n : Nat} {m : Mode} {c c' : Cursor} {lhs r : Located Expr}
    {comparison : Bool} (hn : c.rest.length ≤ n)
    (h : operations rules minimum n lhs comparison m c = .ok (r, c')) :
    ∃ toks, c.Passes toks c' ∧
      Derivation m.colonSeparates (.operations minimum lhs comparison) r toks c'.next := by
  induction n generalizing c lhs comparison with
  | zero =>
      obtain ⟨rfl, rfl⟩ := pure_eq_ok.mp h
      have hnext := Cursor.next_eq_none hn
      exact ⟨[], .refl _, .operationsNil (by simp [stopsOperations, hnext])⟩
  | succ n ih =>
      rw [operations, next?_bind] at h
      rcases hx : c.rest.head? with _ | ⟨t, span⟩ <;> rw [hx] at h
      · obtain ⟨rfl, rfl⟩ := pure_eq_ok.mp h
        have hnext : c'.next = none := by rw [← Cursor.next_eq_map, hx]; rfl
        exact ⟨[], .refl _, .operationsNil (by simp [stopsOperations, hnext])⟩
      · obtain ⟨c₁, hp⟩ := Cursor.passes_head hx
        rcases ho : connective? t with _ | op <;> simp only [ho] at h
        · obtain ⟨rfl, rfl⟩ := pure_eq_ok.mp h
          exact ⟨[], .refl _, .operationsNil (by simp [stopsOperations, hp.next_token, ho])⟩
        · split at h
          next hlt =>
            obtain ⟨rfl, rfl⟩ := pure_eq_ok.mp h
            exact ⟨[], .refl _, .operationsNil (by simp [stopsOperations, hp.next_token, ho, hlt])⟩
          next hle =>
            split at h
            next => exact absurd h fail_ne_ok
            next hcmp =>
              simp only [advance_bind hp, bind_eq_ok] at h
              obtain ⟨rhs, c₂, hrhs, h⟩ := h
              obtain ⟨ts, hts, dr⟩ := hr _ hrhs
              have hlen : c₂.rest.length ≤ n := by
                have h₁ := hp.rest_lt
                have h₂ := hts.length_eq
                omega
              obtain ⟨us, hus, d⟩ := ih hlen h
              rw [hus.next_eq] at dr
              exact ⟨_, hp.cons (hts.trans hus),
                .operationsCons ho (Nat.le_of_not_lt hle) (by simpa using hcmp) dr d⟩

theorem binary_sound (minimum : Nat) : Sound (.binary minimum) (binary rules minimum) := by
  intro m c r c' h
  rw [binary, bind_eq_ok] at h
  obtain ⟨lhs, c₁, hl, h⟩ := h
  rw [bounded_apply] at h
  obtain ⟨ts, hts, dl⟩ := unary_sound hr hl
  obtain ⟨us, hus, d⟩ := operations_sound hr (Nat.le_refl _) h
  rw [hus.next_eq] at dl
  exact ⟨_, hts.trans hus, .binary dl d⟩

theorem expression_sound : Sound .expression (expression rules) := by
  intro m c r c' h
  rw [expression, check_bind_eq_ok] at h
  rcases h with ⟨-, h⟩ | ⟨-, h⟩
  · rw [expect_bind_eq_ok] at h
    obtain ⟨t, c₁, ht, pt, h⟩ := h
    simp only [bind_eq_ok, pure_eq_ok] at h
    obtain ⟨e, c₂, he, rfl, rfl⟩ := h
    obtain ⟨ts, hts, de⟩ := hr .expression he
    exact ⟨_, pt.cons hts, .catchExpr ht de⟩
  · obtain ⟨ts, hts, d⟩ := binary_sound hr 0 h
    exact ⟨_, hts, .operators d⟩

/-- Every rule of the grammar reads what is derived, if the rules that it calls do. -/
theorem step_sound (nt : Nonterminal) : Sound (.rule nt) (step rules nt) := by
  cases nt with
  | expression => exact expression_sound hr
  | binary minimum => exact binary_sound hr minimum
  | unary => exact unary_sound hr
  | primary => exact primary_sound hr

end

/-- Whatever the rules read, with any bound on their depth, has a derivation. -/
theorem within_sound (n : Nat) (nt : Nonterminal) : Sound (.rule nt) (within n nt) := by
  induction n generalizing nt with
  | zero =>
      intro m c r c' h
      exact absurd h unexpected_ne_ok
  | succ n ih => exact step_sound ih nt

end ErlangFragment.Grammar
