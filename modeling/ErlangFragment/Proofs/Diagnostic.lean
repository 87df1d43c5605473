import ErlangFragment.Proofs.FreeVariables.Macros
import ErlangFragment.Proofs.Grammar.Errors
import ErlangFragment.Report

/-! The errors of a source. Whatever reading a text or analysing its trees finds fault with is a
part of the text, from one place between characters to another, so that the report can show it. -/

namespace ErlangFragment

/-! ### Spans that fit a text -/

/-- The byte offset of a place between characters, or of one end of the text. -/
def IsBoundary (text : List Char) (offset : Nat) : Prop :=
  ∃ before after, text = before ++ after ∧ offset = byteLength before

/-- The span is that of a part of the text. -/
structure Span.Fits (text : List Char) (s : Span) : Prop where
  start_le_stop : s.start ≤ s.stop
  stop_le : s.stop ≤ byteLength text
  start : IsBoundary text s.start
  stop : IsBoundary text s.stop

section

variable {text : List Char} {line low high : Nat} {s : Span}

theorem IsBoundary.le {offset : Nat} (h : IsBoundary text offset) : offset ≤ byteLength text := by
  obtain ⟨before, after, rfl, rfl⟩ := h
  rw [byteLength_append]
  exact Nat.le_add_right _ _

theorem fits_point {offset line : Nat} (h : IsBoundary text offset) :
    Span.Fits text ⟨offset, offset, line⟩ :=
  ⟨Nat.le_refl _, h.le, h, h⟩

theorem fits_nowhere : Span.Fits text .nowhere := fits_point ⟨[], text, rfl, rfl⟩

theorem Span.Marks.fits (h : s.Marks text line) : s.Fits text := by
  obtain ⟨before, part, after, htext, hstart, hstop, -⟩ := id h
  have hbehind : IsBoundary text s.stop := ⟨before ++ part, after, htext, hstop⟩
  exact ⟨h.start_le_stop, hbehind.le,
    ⟨before, part ++ after, by rw [htext, List.append_assoc], hstart⟩, hbehind⟩

/-- The end of the last token, or the beginning of the text if there is none. -/
theorem fits_endpoint_lastSpan {tokens : List (Located Token)}
    (h : Ordered text line low tokens high) : (lastSpan .nowhere tokens).endpoint.Fits text := by
  cases tokens with
  | nil => exact fits_nowhere
  | cons t ts =>
      have hmarks : (lastSpan .nowhere (t :: ts)).Marks text line :=
        (h.upToLast (List.cons_ne_nil _ _) .nowhere).1.1
      exact fits_point hmarks.fits.stop

/-! ### Errors of the grammar -/

/-- A parser that fails at places in the text gives an error that fits it. -/
theorem fits_of_places {α : Type} {p : Parser α} {tokens : List (Located Token)} {e : GrammarError}
    (hp : p.Places text line) (h : p.run tokens = .error e)
    (ht : Ordered text line low tokens high) :
    e.span.Fits text := by
  rcases (hp _ ⟨.nowhere, tokens⟩ low high ht).2 e (Grammar.run_error h) with hmarks | ⟨-, hspan⟩
  · exact hmarks.fits
  · rw [hspan]
    exact fits_endpoint_lastSpan ht

theorem parseForms_error_fits {tokens : List (Located Token)} {e : GrammarError}
    (h : parseForms tokens = .error e) (ht : Ordered text line low tokens high) :
    e.span.Fits text := by
  rcases Grammar.parseForms_eq_error h with
    ⟨before, last, rfl, rfl⟩ | ⟨before, q, t, after, rfl, -, he⟩
  · exact fits_point ht.right.1.fits.stop
  · exact fits_of_places Grammar.form_places he ht.left.right

theorem parseExpressionSequence_error_fits {tokens : List (Located Token)} {e : GrammarError}
    (h : parseExpressionSequence tokens = .error e) (ht : Ordered text line low tokens high) :
    e.span.Fits text :=
  fits_of_places Grammar.expressionSequence_places h ht

end

section

variable {source : String} {line : Nat}

/-- The span of a refused snippet fits its text, with the tokens put around it too. -/
theorem parseSnippetAt_error_fits {e : SourceError} (hline : line ≤ lastLine)
    (h : parseSnippetAt source line = .error e) : e.span.Fits source.toList := by
  rcases parseSnippetAt_eq_error h with
    ⟨e', ht, rfl⟩ | ⟨tokens, endLine, ht, ⟨e', hp, rfl⟩ | ⟨f, hp, rfl⟩⟩
  · exact (tokenize_error_marks hline ht).fits
  · exact parseExpressionSequence_error_fits hp (wrapSnippet_ordered hline ht)
  · exact (Grammar.parseExpressionSequence_placed hp (wrapSnippet_ordered hline ht)).span.1.fits

end

/-! ### Errors of the analysis -/

/-- All spans in the part are as `A` asks. -/
def Part.Placed (A : Span → Prop) : Part → Prop
  | expr e => ErlangFragment.Placed.expr A e
  | clause c => ErlangFragment.Placed.clauses A [c]

namespace Part

variable {A : Span → Prop}

theorem placed_exprs {es : List (Located Expr)} (h : ErlangFragment.Placed.exprs A es) :
    ∀ p ∈ es.map expr, p.Placed A :=
  List.forall_mem_map.mpr (ErlangFragment.Placed.exprs_iff.mp h)

theorem placed_optional {e : Option (Located Expr)} (h : ErlangFragment.Placed.optional A e) :
    ∀ p ∈ e.toList.map expr, p.Placed A := by
  cases e with
  | none => exact List.forall_mem_nil _
  | some e => exact List.forall_mem_singleton.mpr h

theorem placed_clauses {cs : List (Located Clause)} (h : ErlangFragment.Placed.clauses A cs) :
    ∀ p ∈ cs.map clause, p.Placed A :=
  List.forall_mem_map.mpr (ErlangFragment.Placed.clauses_iff.mp h)

theorem placed_segments {ss : List Segment} (h : ErlangFragment.Placed.segments A ss) :
    ∀ p ∈ (ss.flatMap fun s => s.value :: s.size.toList).map expr, p.Placed A := by
  induction ss with
  | nil => exact List.forall_mem_nil _
  | cons s ss ih =>
      obtain ⟨value, size, types⟩ := s
      obtain ⟨⟨hvalue, hsize⟩, hss⟩ := h
      rw [List.flatMap_cons, List.map_append, List.map_cons]
      exact List.forall_mem_append.mpr
        ⟨List.forall_mem_cons.mpr ⟨hvalue, placed_optional hsize⟩, ih hss⟩

theorem placed_mapFields {fs : List MapField} (h : ErlangFragment.Placed.mapFields A fs) :
    ∀ p ∈ (fs.flatMap fun f => [f.key, f.value]).map expr, p.Placed A := by
  induction fs with
  | nil => exact List.forall_mem_nil _
  | cons f fs ih =>
      obtain ⟨key, op, value⟩ := f
      obtain ⟨⟨hkey, hvalue⟩, hfs⟩ := h
      exact List.forall_mem_cons.mpr ⟨hkey, List.forall_mem_cons.mpr ⟨hvalue, ih hfs⟩⟩

theorem placed_recordFields {fs : List RecordField} (h : ErlangFragment.Placed.recordFields A fs) :
    ∀ p ∈ (fs.map RecordField.value).map expr, p.Placed A := by
  induction fs with
  | nil => exact List.forall_mem_nil _
  | cons f fs ih =>
      obtain ⟨name, value⟩ := f
      exact List.forall_mem_cons.mpr ⟨h.1.2, ih h.2⟩

theorem placed_qualifiers {qs : List Qualifier} (h : ErlangFragment.Placed.qualifiers A qs) :
    ∀ p ∈ (qs.flatMap Qualifier.exprs).map expr, p.Placed A := by
  induction qs with
  | nil => exact List.forall_mem_nil _
  | cons q qs ih =>
      cases q with
      | generator p e =>
          exact List.forall_mem_cons.mpr ⟨h.1.1, List.forall_mem_cons.mpr ⟨h.1.2, ih h.2⟩⟩
      | binaryGenerator p e =>
          exact List.forall_mem_cons.mpr ⟨h.1.1, List.forall_mem_cons.mpr ⟨h.1.2, ih h.2⟩⟩
      | filter e => exact List.forall_mem_cons.mpr ⟨h.1, ih h.2⟩

theorem placed_after {a : Option After} (h : ErlangFragment.Placed.after A a) :
    ∀ p ∈ (a.toList.flatMap fun x => x.timeout :: x.body).map expr, p.Placed A := by
  cases a with
  | none => exact List.forall_mem_nil _
  | some a =>
      obtain ⟨timeout, body⟩ := a
      rw [Option.toList_some, List.flatMap_singleton]
      exact List.forall_mem_cons.mpr ⟨h.1, placed_exprs h.2⟩

/-- The parts of a node have spans in it that fit where the node's own spans do. -/
theorem placed_parts {e : Expr} (h : ErlangFragment.Placed.parts A e) :
    ∀ p ∈ e.parts, p.Placed A := by
  cases e with
  | integer | float | char | string | atom | var | recordIndex => exact List.forall_mem_nil _
  | tuple | block => exact placed_exprs h
  | list es tail =>
      rw [Expr.parts, List.map_append]
      exact List.forall_mem_append.mpr ⟨placed_exprs h.1, placed_optional h.2⟩
  | binary => exact placed_segments h
  | map base fs =>
      rw [Expr.parts, List.map_append]
      exact List.forall_mem_append.mpr ⟨placed_optional h.1, placed_mapFields h.2⟩
  | record base name fs =>
      rw [Expr.parts, List.map_append]
      exact List.forall_mem_append.mpr ⟨placed_optional h.1, placed_recordFields h.2⟩
  | recordAccess | unaryOp | catchExpr => exact List.forall_mem_singleton.mpr h
  | matchExpr | binaryOp | remote =>
      exact List.forall_mem_cons.mpr ⟨h.1, List.forall_mem_singleton.mpr h.2⟩
  | call => exact List.forall_mem_cons.mpr ⟨h.1, placed_exprs h.2⟩
  | caseExpr => exact List.forall_mem_cons.mpr ⟨h.1, placed_clauses h.2⟩
  | ifExpr | funExpr => exact placed_clauses h
  | receiveExpr => exact List.forall_mem_append.mpr ⟨placed_clauses h.1, placed_after h.2⟩
  | tryExpr =>
      rw [Expr.parts, List.map_append]
      exact List.forall_mem_append.mpr ⟨List.forall_mem_append.mpr ⟨placed_exprs h.1,
        List.forall_mem_append.mpr ⟨placed_clauses h.2.1, placed_clauses h.2.2.1⟩⟩,
        placed_exprs h.2.2.2⟩
  | listComp | binaryComp => exact List.forall_mem_cons.mpr ⟨h.1, placed_qualifiers h.2⟩
  | funRef m f a =>
      rw [Expr.parts, List.map_append]
      exact List.forall_mem_append.mpr ⟨placed_optional h.1,
        List.forall_mem_cons.mpr ⟨h.2.1, List.forall_mem_singleton.mpr h.2.2⟩⟩
  | macroUse name args =>
      cases args with
      | none => exact List.forall_mem_nil _
      | some args => exact placed_exprs h

/-- What holds of the spans in a part holds of those in what is right below it. -/
theorem Placed.children {p : Part} (h : p.Placed A) : ∀ q ∈ p.children, q.Placed A := by
  rcases p with ⟨e, s⟩ | ⟨⟨ps, gs, body⟩, s⟩
  · exact placed_parts (ErlangFragment.Placed.parts_mono e (fun _ ht => ht.1) h.2)
  · obtain ⟨⟨-, hps, hgs, hbody⟩, -⟩ := h
    have hbelow : ∀ t, Span.Below A s t → A t := fun _ ht => ht.1
    have hguards : ErlangFragment.Placed.exprs (Span.Below A s) gs.flatten := by
      refine ErlangFragment.Placed.exprs_iff.mpr fun e he => ?_
      obtain ⟨g, hg, he⟩ := List.mem_flatten.mp he
      exact ErlangFragment.Placed.exprs_iff.mp (ErlangFragment.Placed.guards_iff.mp hgs g hg) e he
    rw [Part.children, Clause.parts, List.map_append, List.map_append]
    exact List.forall_mem_append.mpr ⟨List.forall_mem_append.mpr
      ⟨placed_exprs (ErlangFragment.Placed.exprs_mono _ hbelow hps),
        placed_exprs (ErlangFragment.Placed.exprs_mono _ hbelow hguards)⟩,
      placed_exprs (ErlangFragment.Placed.exprs_mono _ hbelow hbody)⟩

theorem placed_form {f : Located Form} (h : ErlangFragment.Placed.form A f) :
    ∀ p ∈ f.node.parts, p.Placed A := by
  have hbelow (s : Span) : ∀ t, Span.Below A s t → A t := fun _ ht => ht.1
  obtain ⟨⟨name, arity, cs⟩ | ⟨name, es | ts⟩, s⟩ := f
  · exact placed_clauses (ErlangFragment.Placed.clauses_mono _ (hbelow s) h.2.2)
  · exact placed_exprs (ErlangFragment.Placed.exprs_mono _ (hbelow s) h.2.2)
  · exact List.forall_mem_nil _

/-- What holds of the spans of parts holds of everything met inside them. -/
theorem Placed.visits {ps : List Part} (h : ∀ p ∈ ps, p.Placed A) :
    ∀ q ∈ ps.flatMap visits, q.Placed A := by
  -- As in `isPreorder_visits`, the sequence of what is met gets shorter.
  induction hlen : (ps.flatMap Part.visits).length using Nat.strongRecOn generalizing ps with
  | ind len ih =>
      subst hlen
      cases ps with
      | nil => exact List.forall_mem_nil _
      | cons p ps =>
          obtain ⟨hp, hps⟩ := List.forall_mem_cons.mp h
          rw [List.flatMap_cons, visits_eq] at ih ⊢
          refine List.forall_mem_append.mpr ⟨List.forall_mem_cons.mpr ⟨hp, ih _ ?_ hp.children rfl⟩,
            ih _ ?_ hps rfl⟩
          all_goals simp only [List.length_cons, List.length_append]
          all_goals omega

theorem Placed.of_macroSpan? {p : Part} {span : Span} (h : p.Placed A)
    (hspan : p.macroSpan? = some span) :
    A span := by
  rcases p with ⟨e, s⟩ | c
  · cases e <;> cases hspan
    exact h.1
  · cases hspan

/-- An analysis that fails at a macro names a span of the tree. -/
theorem Placed.of_failsAtMacro {result : Except AnalysisError Names} {ps : List (Reading × Part)}
    {met : List Visited} {e : AnalysisError} (h : ∀ p ∈ ps.map Prod.snd, p.Placed A)
    (hfails : FreeVariables.FailsAtMacro result ps met) (he : result = .error e) : A e.span := by
  obtain ⟨span, hfirst, hdiagnostic⟩ := (hfails.eq_error_iff e).mp he
  obtain rfl := (FreeVariables.diagnostic_eq_iff e span).mp hdiagnostic
  obtain ⟨p, hp, hspan⟩ := List.exists_of_findSome?_eq_some hfirst
  exact (Placed.visits h p ((inOrder_perm ps).mem_iff.mp hp)).of_macroSpan? hspan

end Part

/-! ### Errors of a source -/

/-- The expressions and clauses in the trees that are read from a source which starts on the given
line. -/
inductive Part.ReadFrom (source : String) (line : Nat) : Part → Prop
  | snippet {e} : parseSnippetAt source line = .ok e → ReadFrom source line (.expr e)
  | sequence {tokens endLine e} : tokenize source line = .ok (tokens, endLine) →
      parseExpressionSequence tokens = .ok e → ReadFrom source line (.expr e)
  | form {tokens endLine fs f p} : tokenize source line = .ok (tokens, endLine) →
      parseForms tokens = .ok fs →
      f ∈ fs → p ∈ f.node.parts → ReadFrom source line p
  | inside {p q} : ReadFrom source line p → q ∈ p.children → ReadFrom source line q

/-- The errors of the lexer, of the parsers and of the analysis of the trees they give. -/
inductive Diagnostic.RaisedBy (source : String) (line : Nat) : Diagnostic → Prop
  | tokens {e} : tokenize source line = .error e →
      RaisedBy source line (SourceError.lexical e).diagnostic
  | snippet {e} : parseSnippetAt source line = .error e → RaisedBy source line e.diagnostic
  | forms {tokens endLine e} : tokenize source line = .ok (tokens, endLine) →
      parseForms tokens = .error e →
      RaisedBy source line (SourceError.grammar e).diagnostic
  | sequence {tokens endLine e} : tokenize source line = .ok (tokens, endLine) →
      parseExpressionSequence tokens = .error e →
      RaisedBy source line (SourceError.grammar e).diagnostic
  | freeVariables {t e} : Part.ReadFrom source line (.expr t) → freeVariables t = .error e →
      RaisedBy source line e.diagnostic
  | freeVariablesInForm {tokens endLine fs f e} : tokenize source line = .ok (tokens, endLine) →
      parseForms tokens = .ok fs → f ∈ fs → freeVariablesInForm f = .error e →
      RaisedBy source line e.diagnostic

section

variable {source : String} {line : Nat} (hline : line ≤ lastLine)

include hline

theorem parsedForm_fits {tokens : List (Located Token)} {endLine : Nat} {fs : List (Located Form)}
    {f : Located Form} (ht : tokenize source line = .ok (tokens, endLine))
    (hfs : parseForms tokens = .ok fs)
    (hf : f ∈ fs) : Placed.form (Span.Fits source.toList) f :=
  Placed.form_mono (fun _ hs => hs.1.fits) f
    (Grammar.parseForms_placed hfs (tokenize_ordered hline ht).1 f hf)

theorem Part.ReadFrom.fits {p : Part} (h : Part.ReadFrom source line p) :
    p.Placed (Span.Fits source.toList) := by
  induction h with
  | snippet h =>
      obtain ⟨tokens, endLine, span, ht, hp⟩ := parseSnippetAt_block h
      obtain ⟨-, he, -⟩ := Grammar.parseExpressionSequence_placed hp (wrapSnippet_ordered hline ht)
      exact ErlangFragment.Placed.expr_mono _ (fun _ hs => hs.1.1.fits) he
  | sequence ht hp =>
      have he := Grammar.parseExpressionSequence_placed hp (tokenize_ordered hline ht).1
      exact ErlangFragment.Placed.expr_mono _ (fun _ hs => hs.1.fits) he
  | form ht hfs hf hp => exact placed_form (parsedForm_fits hline ht hfs hf) _ hp
  | inside _ hq ih => exact ih.children _ hq

theorem freeVariablesInForm_error_fits {tokens : List (Located Token)} {endLine : Nat}
    {fs : List (Located Form)} {f : Located Form} {e : AnalysisError}
    (ht : tokenize source line = .ok (tokens, endLine))
    (hfs : parseForms tokens = .ok fs) (hf : f ∈ fs) (h : freeVariablesInForm f = .error e) :
    e.span.Fits source.toList := by
  have hplaced := parsedForm_fits hline ht hfs hf
  obtain ⟨⟨name, arity, cs⟩ | ⟨name, value⟩, span⟩ := f
  · refine Part.Placed.of_failsAtMacro ?_ (FreeVariables.clauses_failAtMacro cs) h
    rw [List.map_map]
    exact Part.placed_form hplaced
  · cases h
    cases value <;> exact hplaced.1

/-- An error of a source is about a part of it. -/
theorem Diagnostic.RaisedBy.fits {d : Diagnostic} (h : d.RaisedBy source line) :
    ∃ span, d.span? = some span ∧ span.Fits source.toList := by
  cases h with
  | tokens h => exact ⟨_, rfl, (tokenize_error_marks hline h).fits⟩
  | @snippet e h => exact ⟨e.span, by cases e <;> rfl, parseSnippetAt_error_fits hline h⟩
  | forms ht h => exact ⟨_, rfl, parseForms_error_fits h (tokenize_ordered hline ht).1⟩
  | sequence ht h =>
      exact ⟨_, rfl, parseExpressionSequence_error_fits h (tokenize_ordered hline ht).1⟩
  | freeVariables ht h =>
      refine ⟨_, rfl, Part.Placed.of_failsAtMacro ?_ (FreeVariables.expr_failsAtMacro _) h⟩
      exact List.forall_mem_singleton.mpr (ht.fits hline)
  | freeVariablesInForm ht hfs hf h =>
      exact ⟨_, rfl, freeVariablesInForm_error_fits hline ht hfs hf h⟩

end

/-- What is drawn if the source has the bytes that the label stands at. -/
theorem Report.render_eq_located {source : String} {d : Diagnostic} {drawing : Drawing}
    (h : d.drawing? = some drawing) (hle : drawing.labelStop ≤ byteLength source.toList)
    (headline : Headline) :
    render headline source d = .located drawing (headline source.toList drawing) := by
  rw [render, h]
  exact if_pos hle

/-- An error whose span fits the source is drawn at its span. -/
theorem Report.render_of_fits {source : String} {d : Diagnostic} {span : Span}
    (hspan : d.span? = some span) (hfits : span.Fits source.toList) :
    ∃ drawing, d.drawing? = some drawing ∧ drawing.offset = span.start ∧
    drawing.labelStart = span.start ∧
      drawing.labelStop = span.stop ∧
      ∀ headline, render headline source d = .located drawing (headline source.toList drawing) := by
  cases d <;> cases hspan
  all_goals exact ⟨_, rfl, rfl, rfl, rfl, render_eq_located rfl hfits.stop_le⟩

/-- Every error of a source has a span in it, which begins and ends between characters, so that the
report draws it in the source and is never plain text, whatever the drawing is headed with. -/
theorem report_located (source : String) {line : Nat} (hline : line ≤ lastLine) {d : Diagnostic}
    (h : d.RaisedBy source line) :
    ∃ span, d.span? = some span ∧ span.start ≤ span.stop ∧ span.stop ≤ byteLength source.toList ∧
      IsBoundary source.toList span.start ∧ IsBoundary source.toList span.stop ∧
      ∃ drawing, d.drawing? = some drawing ∧
        ∀ headline, Report.render headline source d =
          .located drawing (headline source.toList drawing) := by
  obtain ⟨span, hspan, hfits⟩ := h.fits hline
  obtain ⟨drawing, hdrawing, -, -, -, hreport⟩ := Report.render_of_fits hspan hfits
  exact ⟨span, hspan, hfits.start_le_stop, hfits.stop_le, hfits.start, hfits.stop, drawing,
    hdrawing, hreport⟩

/-- A macro inside a function, behind characters of more than one byte. -/
theorem report_located_macro :
    3 ≤ lastLine ∧ (Diagnostic.analysis "macro" ⟨13, 15, 3⟩).RaisedBy "f() -> 'é', ?M." 3 ∧
      ∃ span, (Diagnostic.analysis "macro" ⟨13, 15, 3⟩).span? = some span ∧ span.start ≤ span.stop ∧
        span.stop ≤ byteLength "f() -> 'é', ?M.".toList ∧
        IsBoundary "f() -> 'é', ?M.".toList span.start ∧
        IsBoundary "f() -> 'é', ?M.".toList span.stop ∧
        ∃ drawing, (Diagnostic.analysis "macro" ⟨13, 15, 3⟩).drawing? = some drawing ∧
          ∀ headline, Report.render headline "f() -> 'é', ?M." (.analysis "macro" ⟨13, 15, 3⟩) =
            .located drawing (headline "f() -> 'é', ?M.".toList drawing) := by
  have ht : tokenize "f() -> 'é', ?M." 3 =
      .ok ([⟨.atom "f", ⟨0, 1, 3⟩⟩, ⟨.symbol .leftParen, ⟨1, 2, 3⟩⟩,
      ⟨.symbol .rightParen, ⟨2, 3, 3⟩⟩, ⟨.symbol .arrow, ⟨4, 6, 3⟩⟩, ⟨.atom "é", ⟨7, 11, 3⟩⟩,
      ⟨.symbol .comma, ⟨11, 12, 3⟩⟩, ⟨.symbol .question, ⟨13, 14, 3⟩⟩, ⟨.var "M", ⟨14, 15, 3⟩⟩,
      ⟨.terminator, ⟨15, 16, 3⟩⟩], 3) := by decide +kernel
  have hraised : (Diagnostic.analysis "macro" ⟨13, 15, 3⟩).RaisedBy "f() -> 'é', ?M." 3 :=
    .freeVariablesInForm (e := ⟨.macroUse, ⟨13, 15, 3⟩⟩) ht (by cbv) List.mem_cons_self (by cbv)
  exact ⟨by decide, hraised, report_located _ (by decide) hraised⟩

end ErlangFragment
