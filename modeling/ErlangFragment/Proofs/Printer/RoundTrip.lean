import ErlangFragment.Proofs.Printer.Legible
import ErlangFragment.Proofs.Printer.Trees
import ErlangFragment.Proofs.Snippet
import ErlangFragment.Proofs.Source
import ErlangFragment.Proofs.Tree.Alike

/-! Reading the text of a tree gives the tree again, but for spans. -/

namespace ErlangFragment

open Grammar Printer Layout

theorem erase_bare (e : Expr) : erase e.bare = e.bare := by
  rw [erase_eq_bare, Expr.bare, Expr.bare, eraseParts_eraseParts]

/-- The tokens of the text of an expression are those of its layout. -/
theorem tokenize_prettyExpr {e : Located Expr} (h : legible.expr e) (line : Nat) :
    ∃ ts endLine, tokenize (prettyExpr e) line = .ok (ts, endLine) ∧
      ts.map Located.node = (expr 0 e).tokens :=
  Spaced.tokenize (stands_expr e 0 h [] (behind_of_endsDecimal endsDecimal_nil)) line

/-- The tokens of an expression between `begin` and `end`, in front of a terminator. -/
theorem parse_block {e : Expr} {ts : List Token} (h : Reads false e ts) :
    parseExpressionSequence (unplaced
      (.keyword .begin :: (ts ++ [.keyword .end_]) ++ [.terminator])) =
      .ok ⟨.block [⟨.block [e.bare], .nowhere⟩], .nowhere⟩ := by
  have hend : Closes false (some (.keyword .end_)) :=
    ⟨⟨⟨by simp, by simp, by simp⟩, by simp⟩, rfl⟩
  have dbody : Derivation false .exprs [e.bare] (unplaced ts) (some (.keyword .end_)) :=
    .exprs_singleton (h.expression _ hend) (by simp)
  have dunary : Derivation false .unary ⟨.block [e.bare], .nowhere⟩
      (unplaced (.keyword .begin :: (ts ++ [.keyword .end_]))) (some .terminator) := by
    have dblock : Derivation false .primary ⟨.block [e.bare], _⟩ _ (some .terminator) :=
      .block (l := (Token.keyword .begin).unplaced) (r := (Token.keyword .end_).unplaced)
        rfl rfl dbody
    simpa using dblock.unary_of_primary (by simp [stopsPostfixes])
  have hstops : stopsOperations 0 (some .terminator) := by
    simp [stopsOperations, connective?, BinaryOp.ofToken?]
  have dsequence :=
    Derivation.exprs_singleton (.operators (dunary.binary_of_unary hstops)) (by simp)
  have hextent := extent_unplaced (.keyword .begin :: (ts ++ [.keyword .end_]) ++ [.terminator])
  rw [unplaced_append] at hextent ⊢
  exact parseExpressionSequence_terminated.mpr ⟨_, dsequence, congrArg (Located.mk _) hextent.symm⟩

theorem erase_eq_block {f : Located Expr} {es : List (Located Expr)}
    (h : erase f = ⟨.block es, .nowhere⟩) :
    ∃ fs span, f = ⟨.block fs, span⟩ ∧ erase fs = es := by
  obtain ⟨f, span⟩ := f
  rw [erase_expr, Located.mk.injEq] at h
  obtain ⟨fs, rfl, hfs⟩ := eraseParts_eq_block h.1
  exact ⟨fs, span, rfl, hfs⟩

/-- Tokens that read as a node make a snippet with it as its one expression. -/
theorem parseSnippet_of_reads {source : String} {line endLine : Nat} {ts : List (Located Token)}
    {e : Expr} (ht : tokenize source line = .ok (ts, endLine))
    (h : Reads false e (ts.map Located.node)) :
    ∃ f span, parseSnippetAt source line = .ok ⟨.block [f], span⟩ ∧ erase f = e.bare := by
  have hnodes : (unplaced (.keyword .begin :: (ts.map Located.node ++ [.keyword .end_]) ++
      [.terminator])).map
      Located.node = (wrapSnippet source line endLine ts).map Located.node := by
    simp [wrapSnippet]
  have hsame := parseExpressionSequence_same hnodes
  rw [parse_block h] at hsame
  rw [parseSnippetAt_eq ht]
  cases hrun : parseExpressionSequence (wrapSnippet source line endLine ts) with
  | error x =>
    rw [hrun] at hsame
    exact hsame.elim
  | ok sequence =>
    rw [hrun] at hsame
    have herase : erase sequence = ⟨.block [⟨.block [e.bare], .nowhere⟩], .nowhere⟩ := by
      refine Eq.trans (Eq.symm hsame) ?_
      have hinner : erase [e.bare] = [e.bare] := by rw [erase_cons, erase_bare, erase_nil]
      simp only [erase_expr, Expr.eraseParts, erase_cons, erase_nil, hinner]
    obtain ⟨blocks, span, rfl, hblocks⟩ := erase_eq_block herase
    obtain ⟨block, rfl, hblock⟩ := List.map_eq_singleton_iff.mp hblocks
    obtain ⟨body, span', rfl, hbody⟩ := erase_eq_block hblock
    obtain ⟨f, rfl, hf⟩ := List.map_eq_singleton_iff.mp hbody
    exact ⟨f, span', rfl, hf⟩

/-- The text of a tree whose layout means the tree again, and whose tokens are told apart, is read
as the tree. -/
theorem parseSnippet_of_readable {e : Located Expr} (hr : readable.expr e) (hl : legible.expr e) :
    ∃ f span, parseSnippet (prettyExpr e) = .ok ⟨.block [f], span⟩ ∧
    eraseExprSpans f = eraseExprSpans e := by
  obtain ⟨ts, endLine, ht, hnodes⟩ := tokenize_prettyExpr hl 1
  have hreads : Reads false e.node (ts.map Located.node) := by
    rw [hnodes]
    exact reads_expr e false 0 hr (absurd · Bool.false_ne_true)
  obtain ⟨f, span, hf, herase⟩ := parseSnippet_of_reads ht hreads
  exact ⟨f, span, hf, herase.trans (erase_eq_bare e).symm⟩

/-! ### The core of the language -/

/-- Nodes of the core: neither floats nor long integers, no records, macros or references to
functions and no `try`, and numbers and names as they are in source text. -/
def Expr.Core : Expr → Prop
  | .integer n => ∃ k : Nat, n = .small k ∧ k < IntegerLiteral.smallLimit
  | .var v => IsVariableName v
  | .binary ss => ∀ s ∈ ss, ∀ t ∈ s.types, IsSegmentType t
  | .funExpr (some v) _ => IsVariableName v
  | .float _ | .record _ _ _ | .recordIndex _ _ | .recordAccess _ _ _ | .tryExpr _ _ _ _
  | .funRef _ _ _
  | .macroUse _ _ => False
  | _ => True

/-- Trees of the core, in the shape that the grammar has for them. -/
def core : Requirement := ⟨fun e => e.Shaped ∧ e.Core, Clause.Shaped⟩

theorem endsInMacro_of_core {e : Expr} (h : e.Core) : endsInMacro e = false := by
  cases e <;> first | rfl | exact h.elim

/-- Nodes of the core read back. -/
theorem core_readable : Requirement.Combine core core readable where
  clause _ h _ := h
  node e h _same hparts := by
    refine ⟨h.1, ?_⟩
    cases e
    case call f args =>
      obtain ⟨f, s⟩ := f
      exact endsInMacro_of_core hparts.1.1.2
    case funRef => exact h.2.elim
    case tryExpr => exact h.2.elim
    all_goals exact True.intro

/-- The tokens of nodes of the core are told apart. -/
theorem core_legible : Requirement.Combine core core legible where
  clause _ _ _ := True.intro
  node e h _same _parts := by
    cases e
    case integer n =>
      obtain ⟨k, rfl, hk⟩ := h.2
      rw [← ofDecimal_decimal hk]
      exact .decimal fun _ => Radix.isDigit_of_mem_decimal
    case binary => exact h.2
    case var => exact h.2
    case funExpr name _ =>
      cases name with
      | none => exact True.intro
      | some _ => exact h.2
    case float => exact h.2.elim
    case record => exact h.2.elim
    case recordAccess => exact h.2.elim
    case macroUse => exact h.2.elim
    all_goals exact True.intro

/-- Reading undoes printing on the core, in any nesting. -/
theorem parseSnippet_prettyExpr {e : Located Expr} (h : core.expr e) :
    ∃ f span, parseSnippet (prettyExpr e) = .ok ⟨.block [f], span⟩ ∧
    eraseExprSpans f = eraseExprSpans e :=
  parseSnippet_of_readable (Requirement.expr_combine core_readable e h h)
    (Requirement.expr_combine core_legible e h h)

/-- A sum as an operand of a product keeps its parentheses. -/
theorem parseSnippet_prettyExpr_product :
    ∃ f span, parseSnippet "(X + 1) * 2" = .ok ⟨.block [f], span⟩ ∧
      eraseExprSpans f =
        ⟨.binaryOp .mul ⟨.binaryOp .add ⟨.var "X", .nowhere⟩
          ⟨.integer (.small 1), .nowhere⟩, .nowhere⟩
          ⟨.integer (.small 2), .nowhere⟩, .nowhere⟩ := by
  have hx : IsVariableName "X" := ⟨'X', [], rfl, by decide, nofun⟩
  have hone : core.expr ⟨.integer (.small 1), .nowhere⟩ :=
    ⟨rfl, ⟨True.intro, 1, rfl, by decide⟩, True.intro⟩
  have htwo : core.expr ⟨.integer (.small 2), .nowhere⟩ :=
    ⟨rfl, ⟨True.intro, 2, rfl, by decide⟩, True.intro⟩
  have hvar : core.expr ⟨.var "X", .nowhere⟩ := ⟨rfl, ⟨True.intro, hx⟩, True.intro⟩
  have hsum : core.expr
      ⟨.binaryOp .add ⟨.var "X", .nowhere⟩ ⟨.integer (.small 1), .nowhere⟩, .nowhere⟩ :=
    ⟨rfl, ⟨True.intro, True.intro⟩, hvar, hone⟩
  exact parseSnippet_prettyExpr
    (e := ⟨.binaryOp .mul ⟨.binaryOp .add ⟨.var "X", .nowhere⟩
      ⟨.integer (.small 1), .nowhere⟩, .nowhere⟩
      ⟨.integer (.small 2), .nowhere⟩, .nowhere⟩) ⟨rfl, ⟨True.intro, True.intro⟩, hsum, htwo⟩

end ErlangFragment
