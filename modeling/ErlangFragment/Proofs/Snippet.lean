import Mathlib.Data.List.Basic
import ErlangFragment.Proofs.Grammar.Correctness
import ErlangFragment.Proofs.Source

/-! Snippets. The text of a snippet is read between `begin` and `end`; the block that comes out is
what the text means in front of a terminator, unless the text closes the block itself. -/

namespace ErlangFragment

open Grammar

/-- Both ways of reading a text succeed on the same texts, with blocks of the same expressions. -/
def SnippetAgrees (source : String) (line : Nat) (tokens : List (Located Token))
    (stop : Span) : Prop :=
  ((∃ e, parseSnippetAt source line = .ok e) ↔
      ∃ f, parseExpressionSequence (tokens ++ [⟨.terminator, stop⟩]) = .ok f) ∧
    ∀ e f, parseSnippetAt source line = .ok e →
      parseExpressionSequence (tokens ++ [⟨.terminator, stop⟩]) = .ok f →
        ∃ body, e.node = .block body ∧ f.node = .block body

/-- The tokens are expressions up to an `end` that none of them begins. -/
def ClosesBlock (tokens : List (Located Token)) : Prop :=
  ∃ before r after, tokens = before ++ r :: after ∧ r.node = .keyword .end_ ∧
    ∃ f, parseExpressionSequence (before ++ [⟨.terminator, r.span⟩]) = .ok f

theorem sequenceOf_append_terminator {ts : List (Located Token)} {stop : Span}
    {body : List (Located Expr)} :
    SequenceOf (ts ++ [⟨.terminator, stop⟩]) body ↔
      Derivation false .exprs body ts (some .terminator) := by
  constructor
  · rintro ⟨toks, t, h, -, d⟩
    obtain ⟨rfl, -⟩ := List.append_inj' h rfl
    exact d
  · exact fun d => ⟨ts, _, rfl, rfl, d⟩

theorem parseExpressionSequence_terminated {ts : List (Located Token)} {stop : Span}
    {f : Located Expr} :
    parseExpressionSequence (ts ++ [⟨.terminator, stop⟩]) = .ok f ↔
      ∃ body, Derivation false .exprs body ts (some .terminator) ∧
        f = ⟨.block body, extent (ts ++ [⟨.terminator, stop⟩])⟩ := by
  simp only [parseExpressionSequence_iff, sequenceOf_append_terminator]

/-- A token that closes may stand in for the terminator. -/
theorem Grammar.Derivation.exprs_closed {b : Bool} {body : List (Located Expr)}
    {ts : List (Located Token)} {t t' : Token} (d : Derivation b .exprs body ts (some t))
    (ht : closes t = true) (ht' : closes t' = true) : Derivation b .exprs body ts (some t') :=
  d.sameStop rfl (.inr ⟨t, t', rfl, rfl, ht, ht'⟩)

/-- What the text of a snippet stands between. -/
theorem parseSnippetAt_eq_ok {source : String} {line endLine : Nat} {tokens : List (Located Token)}
    (h : tokenize source line = .ok (tokens, endLine)) :
    ∃ l r, l.node = .keyword .begin ∧ r.node = .keyword .end_ ∧ ∀ e,
      parseSnippetAt source line = .ok e ↔
        Derivation false .exprs [e] (l :: (tokens ++ [r])) (some .terminator) := by
  let size := byteLength source.toList
  refine ⟨⟨.keyword .begin, ⟨0, 0, line⟩⟩, ⟨.keyword .end_, ⟨size, size, endLine⟩⟩, rfl, rfl, ?_⟩
  intro e
  have hwrap : wrapSnippet source line endLine tokens =
      (⟨.keyword .begin, ⟨0, 0, line⟩⟩ :: (tokens ++ [⟨.keyword .end_, ⟨size, size, endLine⟩⟩])) ++
        [⟨.terminator, ⟨size, size, endLine⟩⟩] := by
    simp [wrapSnippet, size]
  rw [← @sequenceOf_append_terminator _ ⟨size, size, endLine⟩, ← hwrap]
  constructor
  · intro hok
    obtain ⟨tokens', endLine', span, ht, hp⟩ := parseSnippetAt_block hok
    obtain ⟨rfl, rfl⟩ := Prod.mk.inj (Except.ok.inj (h.symm.trans ht))
    obtain ⟨body, hs, heq⟩ := parseExpressionSequence_iff.mp hp
    cases heq
    exact hs
  · intro hs
    rw [parseSnippetAt_eq h, parseExpressionSequence_iff.mpr ⟨[e], hs, rfl⟩]
    rfl

theorem Grammar.Derivation.primary_begins_block {b : Bool} {e : Located Expr} {l : Located Token}
    {ts : List (Located Token)} {next : Option Token} (hl : l.node = .keyword .begin)
    (d : Derivation b .primary e (l :: ts) next) :
    ∃ body us r, ts = us ++ [r] ∧ r.node = .keyword .end_ ∧
      Derivation b .exprs body us (some r.node) ∧ e = ⟨.block body, l.span.through r.span⟩ := by
  cases d with
  | @block _ body us _ _ r _ hr d => exact ⟨body, us, r, rfl, hr, d, rfl⟩
  | @strings _ texts _ _ hne hrun => cases texts <;> simp_all [StringRun]
  | _ => simp_all [simple?]

/-- One expression that starts with `begin` is the block that its first `end` closes, or goes on
behind that block. -/
theorem Grammar.Derivation.exprs_begins_block {b : Bool} {e : Located Expr} {l : Located Token}
    {ts : List (Located Token)} {next : Option Token} (hl : l.node = .keyword .begin)
    (d : Derivation b .exprs [e] (l :: ts) next) :
    ∃ body us r vs, ts = us ++ r :: vs ∧ r.node = .keyword .end_ ∧
      Derivation b .exprs body us (some r.node) ∧
      (vs = [] → e = ⟨.block body, l.span.through r.span⟩) := by
  generalize hts : l :: ts = all at d
  cases d with
  | separated d dmore =>
    cases dmore
    cases d with
    | catchExpr ht _ => simp_all
    | operators d =>
      cases d with
      | @binary _ _ lhs _ ts₁ us₁ _ d dops =>
        cases d with
        | unaryOp ho _ => simp_all [UnaryOp.ofToken?]
        | @applied _ p _ ts₂ us₂ _ d dpost =>
          cases ts₂ with
          | nil => exact (d.starts).elim
          | cons t ts₂ =>
            simp only [List.cons_append, List.append_nil, List.cons.injEq] at hts
            obtain ⟨rfl, rfl⟩ := hts
            obtain ⟨body, us, r, rfl, hr, dbody, rfl⟩ := d.primary_begins_block hl
            refine ⟨body, us, r, us₂ ++ us₁, by simp, hr, dbody, ?_⟩
            intro hnil
            obtain ⟨rfl, rfl⟩ := List.append_eq_nil_iff.mp hnil
            rw [dops.operations_nil, dpost.postfixes_nil]

/-- The two ways of reading a text agree unless it closes a block that it did not open and is read
as a snippet all the same. -/
theorem snippetAgrees_iff {source : String} {line endLine : Nat} {tokens : List (Located Token)}
    (h : tokenize source line = .ok (tokens, endLine)) (stop : Span) :
    SnippetAgrees source line tokens stop ↔
      (ClosesBlock tokens → ∀ e, parseSnippetAt source line ≠ .ok e) := by
  obtain ⟨l, r, hl, hr, hsnippet⟩ := parseSnippetAt_eq_ok h
  constructor
  · rintro ⟨hiff, -⟩ ⟨before, u, after, rfl, hu, f, hf⟩ e he
    obtain ⟨g, hg⟩ := hiff.mp ⟨e, he⟩
    obtain ⟨body, d, -⟩ := parseExpressionSequence_terminated.mp hf
    obtain ⟨body', d', -⟩ := parseExpressionSequence_terminated.mp hg
    have hall : before ++ (u :: (after ++ [⟨.terminator, stop⟩])) =
        (before ++ u :: after) ++ [⟨.terminator, stop⟩] := by simp
    have du : Derivation false .exprs body before (some u.node) := by
      rw [hu]
      exact d.exprs_closed rfl rfl
    obtain ⟨-, hbefore, -⟩ := Derivation.exprs_deterministic hall du d'
    simpa using congrArg List.length hbefore
  · intro hclosed
    have block {e} (he : parseSnippetAt source line = .ok e) :
        ∃ body span, e = ⟨.block body, span⟩ ∧
          Derivation false .exprs body tokens (some .terminator) := by
      obtain ⟨body, us, u, vs, hts, hu, d, hblock⟩ := ((hsnippet e).mp he).exprs_begins_block hl
      rw [hu] at d
      rcases List.eq_nil_or_concat vs with rfl | ⟨vs, v, rfl⟩
      · obtain ⟨rfl, -⟩ := List.append_inj' hts rfl
        exact ⟨body, _, hblock rfl, d.exprs_closed rfl rfl⟩
      · obtain ⟨rfl, -⟩ : tokens = us ++ u :: vs ∧ [r] = [v] :=
          List.append_inj' (by simpa using hts) rfl
        refine absurd he (hclosed ⟨us, u, vs, rfl, hu, ?_⟩ e)
        exact ⟨_, parseExpressionSequence_terminated.mpr ⟨body, d.exprs_closed rfl rfl, rfl⟩⟩
    refine ⟨⟨?_, ?_⟩, ?_⟩
    · rintro ⟨e, he⟩
      obtain ⟨body, span, -, d⟩ := block he
      exact ⟨_, parseExpressionSequence_terminated.mpr ⟨body, d, rfl⟩⟩
    · rintro ⟨f, hf⟩
      obtain ⟨body, d, -⟩ := parseExpressionSequence_terminated.mp hf
      have dr : Derivation false .exprs body tokens (some r.node) := by
        rw [hr]
        exact d.exprs_closed rfl rfl
      have dunary : Derivation false .unary _ _ (some .terminator) :=
        (Derivation.block hl hr dr).unary_of_primary (by simp [stopsPostfixes])
      refine ⟨⟨.block body, l.span.through r.span⟩, (hsnippet _).mpr ?_⟩
      refine .exprs_singleton (.operators (dunary.binary_of_unary ?_)) (by simp)
      simp [stopsOperations, connective?, BinaryOp.ofToken?]
    · intro e f he hf
      obtain ⟨body, span, rfl, d⟩ := block he
      obtain ⟨body', d', rfl⟩ := parseExpressionSequence_terminated.mp hf
      have hall : tokens ++ [⟨.terminator, stop⟩] = tokens ++ [⟨.terminator, stop⟩] := rfl
      obtain ⟨rfl, -, -⟩ := Derivation.exprs_deterministic hall d d'
      exact ⟨body, rfl, rfl⟩

/-- The `end` in this text closes a block of its own, so both readings agree on it. -/
theorem snippetAgrees_own_block :
    SnippetAgrees "begin X end + 1" 1 [⟨.keyword .begin, ⟨0, 5, 1⟩⟩, ⟨.var "X", ⟨6, 7, 1⟩⟩,
      ⟨.keyword .end_, ⟨8, 11, 1⟩⟩, ⟨.symbol .plus, ⟨12, 13, 1⟩⟩,
      ⟨.integer (.small 1), ⟨14, 15, 1⟩⟩]
      ⟨15, 15, 1⟩ := by
  have ht : tokenize "begin X end + 1" 1 =
      .ok ([⟨.keyword .begin, ⟨0, 5, 1⟩⟩, ⟨.var "X", ⟨6, 7, 1⟩⟩,
      ⟨.keyword .end_, ⟨8, 11, 1⟩⟩, ⟨.symbol .plus, ⟨12, 13, 1⟩⟩,
      ⟨.integer (.small 1), ⟨14, 15, 1⟩⟩], 1) := by
    decide +kernel
  refine (snippetAgrees_iff ht ⟨15, 15, 1⟩).mpr fun hcloses => ?_
  exfalso
  obtain ⟨before, r, after, hts, hr, f, hf⟩ := hcloses
  rcases before with _ | ⟨a, _ | ⟨b, _ | ⟨c, before⟩⟩⟩
  case nil | cons.nil =>
    cases hts
    cases hr
  -- In front of the `end` the block has begun, but it is not closed there.
  case cons.cons.nil =>
    cases hts
    refine (?_ : _ ≠ Except.ok f) hf
    cbv
    simp
  case cons.cons.cons =>
    obtain ⟨-, -, -, hrest⟩ := by simpa using hts
    have hmem := List.mem_append_right before (List.mem_cons_self (a := r) (l := after))
    rw [← hrest] at hmem
    rcases List.mem_cons.mp hmem with rfl | hmem
    · cases hr
    · rw [List.mem_singleton.mp hmem] at hr
      cases hr

/-- This text closes the block that it stands in and opens another one behind it. As a snippet it is
read as a sum of two blocks, and in front of a terminator it is refused. -/
theorem snippet_closing_its_block :
    ∃ tokens endLine, tokenize "X end + begin Y" 1 = .ok (tokens, endLine) ∧
      (∃ l r span, parseSnippetAt "X end + begin Y" 1 = .ok ⟨.binaryOp .add l r, span⟩) ∧
      ∀ f, parseExpressionSequence (tokens ++ [⟨.terminator, ⟨15, 15, 1⟩⟩]) ≠ .ok f := by
  have ht : tokenize "X end + begin Y" 1 = .ok ([⟨.var "X", ⟨0, 1, 1⟩⟩, ⟨.keyword .end_, ⟨2, 5, 1⟩⟩,
      ⟨.symbol .plus, ⟨6, 7, 1⟩⟩, ⟨.keyword .begin, ⟨8, 13, 1⟩⟩, ⟨.var "Y", ⟨14, 15, 1⟩⟩], 1) := by
    decide +kernel
  refine ⟨_, _, ht, ?_, ?_⟩
  · refine ⟨⟨.block [⟨.var "X", ⟨0, 1, 1⟩⟩], ⟨0, 5, 1⟩⟩,
      ⟨.block [⟨.var "Y", ⟨14, 15, 1⟩⟩], ⟨8, 15, 1⟩⟩, ⟨0, 15, 1⟩, ?_⟩
    rw [parseSnippetAt_of_byteLength 15 ht (by decide +kernel)]
    cbv
  · intro f
    cbv
    simp

end ErlangFragment
