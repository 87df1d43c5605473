import ErlangFragment.Proofs.Grammar.Relocation
import ErlangFragment.Source

/-! From a text to its trees in two steps: the tokens of the text, and what the grammar makes of
them. Texts with the same tokens are read alike, wherever the tokens stand. -/

namespace ErlangFragment

section

variable {ε ε' α β : Type} {x : Except ε α} {g : ε → ε'} {f : α → Except ε' β}

theorem of_mapError_eq_ok {a : α} (h : x.mapError g = .ok a) : x = .ok a := by
  cases x with
  | error _ => cases h
  | ok b => exact congrArg Except.ok (Except.ok.inj h)

theorem of_mapError_eq_error {e : ε'} (h : x.mapError g = .error e) :
    ∃ e', x = .error e' ∧ g e' = e := by
  cases x with
  | error e' => exact ⟨e', rfl, Except.error.inj h⟩
  | ok _ => cases h

theorem of_mapError_bind_eq_ok {b : β} (h : (x.mapError g >>= f) = .ok b) :
    ∃ a, x = .ok a ∧ f a = .ok b := by
  cases x with
  | error _ => cases h
  | ok a => exact ⟨a, rfl, h⟩

theorem of_mapError_bind_eq_error {e : ε'} (h : (x.mapError g >>= f) = .error e) :
    (∃ e', x = .error e' ∧ g e' = e) ∨ ∃ a, x = .ok a ∧ f a = .error e := by
  cases x with
  | error e' => exact .inl ⟨e', rfl, Except.error.inj h⟩
  | ok a => exact .inr ⟨a, rfl, h⟩

end

section

variable {source : String} {line endLine : Nat} {ts : List (Located Token)}

/-! ### The forms of a text -/

theorem parseDeclarationsAt_eq (h : tokenize source line = .ok (ts, endLine)) :
    parseDeclarationsAt source line = (parseForms ts).mapError .grammar := by
  rw [parseDeclarationsAt, h]
  rfl

theorem parseForms_of_parseDeclarationsAt {fs : List (Located Form)}
    (h : parseDeclarationsAt source line = .ok fs) :
    ∃ ts endLine, tokenize source line = .ok (ts, endLine) ∧ parseForms ts = .ok fs := by
  obtain ⟨⟨ts, endLine⟩, ht, hforms⟩ := of_mapError_bind_eq_ok h
  exact ⟨ts, endLine, ht, of_mapError_eq_ok hforms⟩

/-- What is wrong with a text that has no forms: a token, or the form that its tokens should be. -/
theorem parseDeclarationsAt_eq_error {e : SourceError}
    (h : parseDeclarationsAt source line = .error e) :
      (∃ e', tokenize source line = .error e' ∧ e = .lexical e') ∨
      ∃ ts endLine e', tokenize source line = .ok (ts, endLine) ∧ parseForms ts = .error e' ∧
        e = .grammar e' := by
  rcases of_mapError_bind_eq_error h with ⟨e', ht, rfl⟩ | ⟨⟨ts, endLine⟩, ht, hforms⟩
  · exact .inl ⟨e', ht, rfl⟩
  · obtain ⟨e', hfs, rfl⟩ := of_mapError_eq_error hforms
    exact .inr ⟨ts, endLine, e', ht, hfs, rfl⟩

/-! ### Snippets -/

/-- What a snippet is, given the block around it. -/
def snippetOf (sequence : Located Expr) : Except SourceError (Located Expr) :=
  match sequence.node with
  | .block [block] => .ok block
  | _ => .error (.grammar ⟨.snippet, .unopenedBlock, sequence.span⟩)

theorem snippetOf_eq_error {e : Expr} {s : Span} (h : ∀ b, e ≠ .block [b]) :
    snippetOf ⟨e, s⟩ = .error (.grammar ⟨.snippet, .unopenedBlock, s⟩) := by
  unfold snippetOf
  split
  · next b heq => exact absurd heq (h b)
  · rfl

theorem snippetOf_eq_ok {f e : Located Expr} (h : snippetOf f = .ok e) :
    f = ⟨.block [e], f.span⟩ := by
  obtain ⟨f, span⟩ := f
  by_cases hblock : ∃ b, f = .block [b]
  · obtain ⟨b, rfl⟩ := hblock
    rw [Except.ok.inj h]
  · rw [snippetOf_eq_error fun b heq => hblock ⟨b, heq⟩] at h
    cases h

theorem error_of_snippetOf {f : Located Expr} {e : SourceError} (h : snippetOf f = .error e) :
    e = .grammar ⟨.snippet, .unopenedBlock, f.span⟩ := by
  obtain ⟨f, span⟩ := f
  by_cases hblock : ∃ b, f = .block [b]
  · obtain ⟨b, rfl⟩ := hblock
    cases h
  · rw [snippetOf_eq_error fun b heq => hblock ⟨b, heq⟩] at h
    exact (Except.error.inj h).symm

theorem parseSnippetAt_eq (h : tokenize source line = .ok (ts, endLine)) :
    parseSnippetAt source line =
      ((parseExpressionSequence (wrapSnippet source line endLine ts)).mapError .grammar >>=
        snippetOf) := by
  rw [parseSnippetAt, h]
  rfl

/-- The same with the tokens written out. What is then left to evaluate has no characters in it. -/
theorem parseSnippetAt_of_byteLength (size : Nat) (h : tokenize source line = .ok (ts, endLine))
    (hsize : byteLength source.toList = size) :
    parseSnippetAt source line =
      ((parseExpressionSequence (⟨.keyword .begin, ⟨0, 0, line⟩⟩ :: ts ++
          [⟨.keyword .end_, ⟨size, size, endLine⟩⟩, ⟨.terminator, ⟨size, size, endLine⟩⟩])).mapError
        .grammar >>= snippetOf) := by
  rw [parseSnippetAt_eq h, wrapSnippet, hsize]

theorem parseSnippetAt_block {e : Located Expr} (h : parseSnippetAt source line = .ok e) :
    ∃ ts endLine span, tokenize source line = .ok (ts, endLine) ∧
      parseExpressionSequence (wrapSnippet source line endLine ts) = .ok ⟨.block [e], span⟩ := by
  obtain ⟨⟨ts, endLine⟩, ht, hrest⟩ := of_mapError_bind_eq_ok h
  obtain ⟨f, hf, he⟩ := of_mapError_bind_eq_ok hrest
  rw [snippetOf_eq_ok he] at hf
  exact ⟨ts, endLine, f.span, ht, hf⟩

/-- What is wrong with a text that is no snippet: a token, the sequence of expressions, or what the
block around them has become. -/
theorem parseSnippetAt_eq_error {e : SourceError} (h : parseSnippetAt source line = .error e) :
    (∃ e', tokenize source line = .error e' ∧ e = .lexical e') ∨
      ∃ ts endLine, tokenize source line = .ok (ts, endLine) ∧
        ((∃ e', parseExpressionSequence (wrapSnippet source line endLine ts) = .error e' ∧
            e = .grammar e') ∨
          ∃ f, parseExpressionSequence (wrapSnippet source line endLine ts) = .ok f ∧
            e = .grammar ⟨.snippet, .unopenedBlock, f.span⟩) := by
  rcases of_mapError_bind_eq_error h with ⟨e', ht, rfl⟩ | ⟨⟨ts, endLine⟩, ht, hrest⟩
  · exact .inl ⟨e', ht, rfl⟩
  · refine .inr ⟨ts, endLine, ht, ?_⟩
    rcases of_mapError_bind_eq_error hrest with ⟨e', hp, rfl⟩ | ⟨f, hf, he⟩
    · exact .inl ⟨e', hp, rfl⟩
    · exact .inr ⟨f, hf, error_of_snippetOf he⟩

end

/-! ### Texts with the same tokens -/

/-- Both readings succeed, with results that `strip` makes equal, or both fail for the same
reason. -/
def SameReading {α : Type} (strip : α → α) : Except SourceError α → Except SourceError α → Prop
  | .ok a, .ok b => strip a = strip b
  | .error (.grammar x), .error (.grammar y) => x.context = y.context ∧ x.fault = y.fault
  | _, _ => False

section

variable {source source' : String} {line endLine endLine' : Nat} {ts us : List (Located Token)}

theorem parseDeclarationsAt_same (ht : tokenize source line = .ok (ts, endLine))
    (hu : tokenize source' line = .ok (us, endLine'))
    (hnodes : ts.map Located.node = us.map Located.node) :
    SameReading eraseSpans (parseDeclarationsAt source line)
      (parseDeclarationsAt source' line) := by
  have hsame := parseForms_same hnodes
  rw [parseDeclarationsAt_eq ht, parseDeclarationsAt_eq hu]
  rcases hx : parseForms ts with x | a <;> rcases hy : parseForms us with
    y | b <;> rw [hx, hy] at hsame
  · exact hsame
  · exact hsame.elim
  · exact hsame.elim
  · change eraseSpans a = eraseSpans b
    rw [eraseSpans_eq, eraseSpans_eq]
    exact hsame

theorem eraseParts_eq_block {e : Expr} {fs : List (Located Expr)} (h : e.eraseParts = .block fs) :
    ∃ es, e = .block es ∧ erase es = fs := by
  cases e <;> simp_all [Expr.eraseParts]

theorem snippetOf_same {e f : Located Expr} (h : erase e = erase f) :
    SameReading eraseExprSpans (snippetOf e) (snippetOf f) := by
  obtain ⟨e, s⟩ := e
  obtain ⟨f, t⟩ := f
  rw [erase_expr, erase_expr, Located.mk.injEq] at h
  by_cases hblock : ∃ b, e = .block [b]
  · obtain ⟨b, rfl⟩ := hblock
    obtain ⟨es, rfl, hes⟩ := eraseParts_eq_block h.1.symm
    obtain ⟨c, rfl, hc⟩ := List.map_eq_singleton_iff.mp hes
    exact hc.symm
  · have hnone : ∀ b, f ≠ .block [b] := by
      rintro b rfl
      obtain ⟨es, rfl, hes⟩ := eraseParts_eq_block h.1
      obtain ⟨c, rfl, -⟩ := List.map_eq_singleton_iff.mp hes
      exact hblock ⟨c, rfl⟩
    rw [snippetOf_eq_error fun b heq => hblock ⟨b, heq⟩, snippetOf_eq_error hnone]
    exact ⟨rfl, rfl⟩

theorem parseSnippetAt_same (ht : tokenize source line = .ok (ts, endLine))
    (hu : tokenize source' line = .ok (us, endLine'))
    (hnodes : ts.map Located.node = us.map Located.node) :
    SameReading eraseExprSpans (parseSnippetAt source line) (parseSnippetAt source' line) := by
  have hwrapped : (wrapSnippet source line endLine ts).map Located.node =
      (wrapSnippet source' line endLine' us).map Located.node := by
    simp [wrapSnippet, hnodes]
  have hsame := parseExpressionSequence_same hwrapped
  rw [parseSnippetAt_eq ht, parseSnippetAt_eq hu]
  rcases hx : parseExpressionSequence (wrapSnippet source line endLine ts) with x | e <;>
    rcases hy : parseExpressionSequence (wrapSnippet source' line endLine' us) with y | f <;>
    rw [hx, hy] at hsame
  · exact hsame
  · exact hsame.elim
  · exact hsame.elim
  · exact snippetOf_same hsame

end

end ErlangFragment
