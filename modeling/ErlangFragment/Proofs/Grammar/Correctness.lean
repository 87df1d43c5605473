import ErlangFragment.Grammar.Form
import ErlangFragment.Proofs.Grammar.Completeness
import ErlangFragment.Proofs.Grammar.Soundness

/-! The expression grammar reads exactly what is derived, and what stands behind a derivation
matters only as far as its tokens could go on. -/

namespace ErlangFragment.Grammar

open ErlangFragment.Parser ErlangFragment.Reader

/-- Expressions are read from exactly the tokens that they are derived from. -/
theorem withRules_exprs_iff {m : Mode} {c c' : Cursor} {es : List (Located Expr)} :
    (withRules exprs : Parser (List (Located Expr))) m c = .ok (es, c') ↔
      ∃ toks, c.Passes toks c' ∧ Derivation m.colonSeparates .exprs es toks c'.next := by
  rw [withRules, bounded_apply]
  constructor
  · exact fun h => exprs_sound (within_sound _) h
  · rintro ⟨toks, hp, d⟩
    exact exprs_complete (within_complete _) d hp (by rw [hp.length_eq]; omega)

/-! ### Tokens at which everything stops -/

/-- The tokens that no phrase goes on with. -/
def closes : Token → Bool
  | .keyword .end_ | .terminator => true
  | _ => false

/-- The same token, or two tokens that no phrase goes on with. -/
def SameStop (next next' : Option Token) : Prop :=
  next = next' ∨ ∃ t t', next = some t ∧ next' = some t' ∧ closes t = true ∧ closes t' = true

namespace SameStop

variable {next next' : Option Token}

theorem refl (next : Option Token) : SameStop next next := .inl rfl

theorem firstOf (h : SameStop next next') (ts : List (Located Token)) :
    SameStop (firstOf ts next) (firstOf ts next') := by
  cases ts with
  | nil => exact h
  | cons t ts => exact refl _

theorem ne (h : SameStop next next') {t : Token} (hne : next ≠ some t) (ht : closes t = false) :
    next' ≠ some t := by
  rcases h with rfl | ⟨_, u, -, rfl, -, hu⟩
  · exact hne
  · rintro ⟨⟩
    exact Bool.false_ne_true (ht.symm.trans hu)

theorem stopsPostfixes (h : SameStop next next') {b : Bool} (hs : stopsPostfixes b next) :
    stopsPostfixes b next' := by
  refine ⟨h.ne hs.1 rfl, h.ne hs.2.1 rfl, ?_⟩
  rintro rfl
  rcases h with rfl | ⟨_, _, -, ⟨⟩, -, hc⟩
  · exact hs.2.2 rfl
  · cases hc

theorem stopsOperations (h : SameStop next next') {minimum : Nat}
    (hs : stopsOperations minimum next) : stopsOperations minimum next' := by
  rcases h with rfl | ⟨_, t, -, rfl, -, ht⟩
  · exact hs
  · intro op hop
    cases t with
    | keyword k => cases k <;> simp_all [closes, connective?, BinaryOp.ofToken?]
    | terminator => simp [connective?, BinaryOp.ofToken?] at hop
    | _ => cases ht

end SameStop

/-- No list in the phrase goes on with a token that closes. -/
def Phrase.goesOn : Phrase → Bool
  | more s p | separated s p => !closes s && p.goesOn
  | braced p => p.goesOn
  | part w s p => !closes (.keyword w) && !closes s && p.goesOn
  | _ => true

/-- What closes a phrase may be put for one another. -/
theorem Derivation.sameStop {b : Bool} {ph : Phrase} {r : ph.Result} {toks : List (Located Token)}
    {next next' : Option Token} (d : Derivation b ph r toks next) (hg : ph.goesOn = true)
    (h : SameStop next next') : Derivation b ph r toks next' := by
  induction d generalizing next' with
  | moreNil hne =>
      rw [Phrase.goesOn, Bool.and_eq_true, Bool.not_eq_true'] at hg
      exact .moreNil (h.ne hne hg.1)
  | moreCons ht _ _ ih ih' =>
      exact .moreCons ht (ih (Bool.and_eq_true_iff.mp hg).2 (h.firstOf _)) (ih' hg h)
  | separated _ _ ih ih' =>
      exact .separated (ih (Bool.and_eq_true_iff.mp hg).2 (h.firstOf _)) (ih' hg h)
  | bracedNil hl hr => exact .bracedNil hl hr
  | braced hl hr _ ih => exact .braced hl hr (ih hg (.refl _))
  | partNone hne =>
      simp only [Phrase.goesOn, Bool.and_eq_true, Bool.not_eq_true'] at hg
      exact .partNone (h.ne hne hg.1.1)
  | partSome ht _ ih =>
      simp only [Phrase.goesOn, Bool.and_eq_true] at hg
      refine .partSome ht (ih ?_ h)
      simp only [Phrase.goesOn, Bool.and_eq_true]
      exact ⟨hg.1.2, hg.2⟩
  | catchExpr ht _ ih => exact .catchExpr ht (ih rfl h)
  | operators _ ih => exact .operators (ih rfl h)
  | binary _ _ ih ih' => exact .binary (ih rfl (h.firstOf _)) (ih' rfl h)
  | operationsNil hs => exact .operationsNil (h.stopsOperations hs)
  | operationsCons ho hle hc _ _ ih ih' =>
      exact .operationsCons ho hle hc (ih rfl (h.firstOf _)) (ih' rfl h)
  | unaryOp ho _ ih => exact .unaryOp ho (ih rfl h)
  | applied _ _ ih ih' => exact .applied (ih rfl (h.firstOf _)) (ih' rfl h)
  | postfixesNil hs => exact .postfixesNil (h.stopsPostfixes hs)
  | call _ _ ih ih' => exact .call (ih rfl (h.firstOf _)) (ih' rfl h)
  | remoteCall hb ht _ _ _ ih ih' ih'' =>
      exact .remoteCall hb ht (ih rfl ((h.firstOf _).firstOf _)) (ih' rfl (h.firstOf _))
        (ih'' rfl h)
  | mapUpdate ht _ _ ih ih' => exact .mapUpdate ht (ih rfl (h.firstOf _)) (ih' rfl h)
  | recordUpdate ht hn _ _ ih ih' => exact .recordUpdate ht hn (ih rfl (h.firstOf _)) (ih' rfl h)
  | recordAccess ht hn hd hf _ ih => exact .recordAccess ht hn hd hf (ih rfl h)
  | argumentsNil hl hr => exact .argumentsNil hl hr
  | arguments hl hr d _ => exact .arguments hl hr d
  | argPatternsNil hl hr => exact .argPatternsNil hl hr
  | argPatterns hl hr d _ => exact .argPatterns hl hr d
  | unguarded ha _ ih => exact .unguarded ha (ih rfl h)
  | guarded hw d ha _ _ ih => exact .guarded hw d ha (ih rfl h)
  | caseClause _ _ ih ih' => exact .caseClause (ih rfl (h.firstOf _)) (ih' rfl h)
  | reason _ hne ih => exact .reason (ih rfl h) (h.ne hne rfl)
  | classReason d ht _ hne _ ih => exact .classReason d ht (ih rfl h) (h.ne hne rfl)
  | classReasonStack d ht d' hu _ _ _ ih => exact .classReasonStack d ht d' hu (ih rfl h)
  | catchClause _ _ ih ih' => exact .catchClause (ih rfl (h.firstOf _)) (ih' rfl h)
  | funClause _ _ ih ih' => exact .funClause (ih rfl (h.firstOf _)) (ih' rfl h)
  | namedFunClause ht _ _ ih ih' => exact .namedFunClause ht (ih rfl (h.firstOf _)) (ih' rfl h)
  | ifClause d ha _ _ ih => exact .ifClause d ha (ih rfl h)
  | assocField d ht _ _ ih => exact .assocField d ht (ih rfl h)
  | exactField d ht _ _ ih => exact .exactField d ht (ih rfl h)
  | recordField hn ht _ ih => exact .recordField hn ht (ih rfl h)
  | generator d ht _ _ ih => exact .generator d ht (ih rfl h)
  | binaryGenerator d ht _ _ ih => exact .binaryGenerator d ht (ih rfl h)
  | filter _ hne hne' ih => exact .filter (ih rfl h) (h.ne hne rfl) (h.ne hne' rfl)
  | segmentType ht hne => exact .segmentType ht (h.ne hne rfl)
  | segmentTypeArg ht hu hv => exact .segmentTypeArg ht hu hv
  | signedSegmentValue ho _ ih => exact .signedSegmentValue ho (ih rfl h)
  | segmentValue _ ih => exact .segmentValue (ih rfl h)
  | segmentSizeNone hne => exact .segmentSizeNone (h.ne hne rfl)
  | segmentSize ht _ ih => exact .segmentSize ht (ih rfl h)
  | segmentTypesNil hne => exact .segmentTypesNil (h.ne hne rfl)
  | segmentTypes ht _ ih => exact .segmentTypes ht (ih rfl h)
  | segment _ _ _ ih ih' ih'' =>
      exact .segment (ih rfl ((h.firstOf _).firstOf _)) (ih' rfl (h.firstOf _)) (ih'' rfl h)
  | noAfter hne => exact .noAfter (h.ne hne rfl)
  | after ht d ha _ _ ih => exact .after ht d ha (ih rfl h)
  | simple hs => exact .simple hs
  | strings hne hr hs => exact .strings hne hr fun s => h.ne (hs s) rfl
  | parenthesized hl hr d _ => exact .parenthesized hl hr d
  | tupleNil hl hr => exact .tupleNil hl hr
  | tuple hl hr d _ => exact .tuple hl hr d
  | listNil hl hr => exact .listNil hl hr
  | list hl hr d _ => exact .list hl hr d
  | listTail hl hr d hp d' _ _ => exact .listTail hl hr d hp d'
  | listComp hl hr d hp d' _ _ => exact .listComp hl hr d hp d'
  | binaryNil hl hr => exact .binaryNil hl hr
  | binaryLiteral hl hr d _ => exact .binaryLiteral hl hr d
  | binaryComp hl hr d hp d' _ _ => exact .binaryComp hl hr d hp d'
  | map ht _ ih => exact .map ht (ih rfl h)
  | record ht hn _ ih => exact .record ht hn (ih rfl h)
  | recordIndex ht hn hd hf => exact .recordIndex ht hn hd hf
  | block hl hr d _ => exact .block hl hr d
  | caseExpr hl hr d ho d' _ _ => exact .caseExpr hl hr d ho d'
  | ifExpr hl hr d _ => exact .ifExpr hl hr d
  | receiveAfter hl hr d _ => exact .receiveAfter hl hr d
  | receiveExpr hl hr d d' _ _ => exact .receiveExpr hl hr d d'
  | tryExpr hl hr d d₁ d₂ d₃ hs _ _ _ _ => exact .tryExpr hl hr d d₁ d₂ d₃ hs
  | funExpr hl hr d _ => exact .funExpr hl hr d
  | namedFun hl hr d _ => exact .namedFun hl hr d
  | localReference hl hf hs _ ih => exact .localReference hl hf hs (ih rfl h)
  | remoteReference hl hk hm hc d hs _ _ ih => exact .remoteReference hl hk hm hc d hs (ih rfl h)
  | macroName hq hn hne => exact .macroName hq hn (h.ne hne rfl)
  | macroCall hq hn _ ih => exact .macroCall hq hn (ih rfl h)

/-! ### Expression sequences -/

theorem expectEnd_eq_ok {m : Mode} {c c' : Cursor} {u : Unit} :
    (expectEnd : Parser Unit) m c = .ok (u, c') ↔ c.rest = [] ∧ c' = c := by
  rw [expectEnd, next?_bind]
  rcases hn : c.rest with _ | ⟨t, ts⟩
  · exact pure_eq_ok.trans ⟨fun h => ⟨rfl, h.2⟩, fun h => ⟨rfl, h.2⟩⟩
  · exact ⟨fun h => absurd h fail_ne_ok, by simp⟩

/-- A derivation of the expressions in front of the terminator, which is the last token. -/
def SequenceOf (tokens : List (Located Token)) (body : List (Located Expr)) : Prop :=
  ∃ toks t, tokens = toks ++ [t] ∧ t.node = .terminator ∧
    Derivation false .exprs body toks (some .terminator)

theorem parseExpressionSequence_iff {tokens : List (Located Token)} {e : Located Expr} :
    parseExpressionSequence tokens = .ok e ↔
      ∃ body, SequenceOf tokens body ∧ e = ⟨.block body, extent tokens⟩ := by
  have hrun : parseExpressionSequence tokens = .ok e ↔
      ∃ c', expressionSequence ⟨.expression, false⟩ ⟨.nowhere, tokens⟩ = .ok (e, c') := by
    rw [parseExpressionSequence, run]
    cases expressionSequence ⟨.expression, false⟩ ⟨.nowhere, tokens⟩ with
    | error _ => simp [Except.map]
    | ok r => simp [Except.map, Prod.ext_iff]
  rw [hrun]
  simp only [expressionSequence, inContext_apply, position_bind]
  constructor
  · rintro ⟨c', h⟩
    rw [bind_eq_ok] at h
    obtain ⟨body, c₁, hb, h⟩ := h
    rw [expect_bind_eq_ok] at h
    obtain ⟨t, c₂, ht, pt, h⟩ := h
    simp only [bind_eq_ok, expectEnd_eq_ok, pure_eq_ok] at h
    obtain ⟨-, _, ⟨hend, rfl⟩, rfl, rfl⟩ := h
    obtain ⟨toks, hp, d⟩ := withRules_exprs_iff.mp hb
    rw [pt.next_token, ht] at d
    have hall := (hp.trans pt).rest
    rw [hend, List.append_nil] at hall
    refine ⟨body, ⟨toks, t, hall, ht, d⟩, ?_⟩
    rw [← pt.previous_token, (hp.trans pt).extent_eq (by simp)]
    simp only at hall
    rw [hall]
  · rintro ⟨body, ⟨toks, t, rfl, ht, d⟩, rfl⟩
    have hall : Cursor.Passes ⟨.nowhere, toks ++ [t]⟩ (toks ++ [t])
        ⟨lastSpan .nowhere (toks ++ [t]), []⟩ :=
      ⟨by simp, rfl⟩
    obtain ⟨c₁, hp, pt⟩ := hall.split_append
    rw [← ht, ← pt.next_token] at d
    refine ⟨⟨lastSpan .nowhere (toks ++ [t]), []⟩, ?_⟩
    rw [bind_eq_ok]
    refine ⟨body, c₁, withRules_exprs_iff.mpr ⟨toks, hp, d⟩, ?_⟩
    rw [expect_bind_eq_ok]
    refine ⟨t, _, ht, pt, ?_⟩
    simp only [bind_eq_ok, expectEnd_eq_ok, pure_eq_ok]
    refine ⟨(), _, ⟨trivial, rfl⟩, ?_, rfl⟩
    rw [← pt.previous_token, hall.extent_eq (by simp)]

/-- The text decides where a list of expressions ends and what it means. -/
theorem Derivation.exprs_deterministic {b : Bool} {es es' : List (Located Expr)}
    {ts us ts' us' : List (Located Token)} (h : ts ++ us = ts' ++ us')
    (d : Derivation b .exprs es ts (firstOf us none))
    (d' : Derivation b .exprs es' ts' (firstOf us' none)) : es = es' ∧ ts = ts' ∧ us = us' := by
  have hp : Cursor.Passes ⟨.nowhere, ts ++ us⟩ ts ⟨lastSpan .nowhere ts, us⟩ := ⟨rfl, rfl⟩
  have hp' : Cursor.Passes ⟨.nowhere, ts ++ us⟩ ts' ⟨lastSpan .nowhere ts', us'⟩ := ⟨h, rfl⟩
  have e := withRules_exprs_iff (m := ⟨.expression, b⟩).mpr ⟨ts, hp, d⟩
  have e' := withRules_exprs_iff (m := ⟨.expression, b⟩).mpr ⟨ts', hp', d'⟩
  rw [e] at e'
  simp only [Except.ok.injEq, Prod.mk.injEq, Cursor.mk.injEq] at e'
  obtain ⟨hes, -, hus⟩ := e'
  subst hus
  exact ⟨hes, List.append_cancel_right h, rfl⟩

end ErlangFragment.Grammar
