import ErlangFragment.Proofs.Token.Scan
import ErlangFragment.Source

/-! Texts that are refused. The error is about the first place where no lexeme starts, and a search
for the closing quote from there on tells its reason and where it ends. -/

namespace ErlangFragment

open Lexeme Lexer

/-- The quote on both sides of the text. -/
def Quotation.mark : Quotation → Char
  | string => '"'
  | atom => '\''

/-- The quote does not stand in the text but behind a backslash, which hides it. -/
inductive Quoted.Unclosing (quote : Char) : List Char → Prop
  | nil : Unclosing quote []
  | plain {c cs} : c ≠ '\\' → c ≠ quote → Unclosing quote cs → Unclosing quote (c :: cs)
  | hidden {c cs} : Unclosing quote cs → Unclosing quote ('\\' :: c :: cs)

open Quoted (Unclosing)

/-! ### The closing quote -/

section

variable {quote : Char} {n : Nat} {cs body rest : List Char}

theorem closingQuote?_cons {c : Char} (hc : c ≠ '\\') (cs : List Char) :
    closingQuote? quote (c :: cs) =
      if c = quote then some 1 else (closingQuote? quote cs).map (· + 1) := by
  rw [closingQuote?]
  simp [hc]

theorem Quoted.Unclosing.closingQuote? (h : Unclosing quote body) (hquote : quote ≠ '\\') :
    closingQuote? quote (body ++ quote :: rest) = some (body.length + 1) := by
  induction h with
  | nil => simp [closingQuote?_cons hquote]
  | plain hc hne _ ih => simp [closingQuote?_cons hc, hne, ih]
  | hidden _ ih => simp [Lexer.closingQuote?, ih]

/-- The closing quote that is found is the first one that no backslash hides. -/
theorem unclosing_of_closingQuote? (h : closingQuote? quote cs = some n) :
    ∃ body rest, cs = body ++ quote :: rest ∧ Unclosing quote body ∧ n = body.length + 1 := by
  fun_induction Lexer.closingQuote? quote cs generalizing n
  case case1 => cases h
  case case2 d cs ih =>
      obtain ⟨k, hk, rfl⟩ := Option.map_eq_some_iff.mp h
      obtain ⟨body, rest, rfl, hbody, rfl⟩ := ih hk
      exact ⟨'\\' :: d :: body, rest, rfl, .hidden hbody, rfl⟩
  case case3 cs _ =>
      obtain rfl := Option.some.inj h
      exact ⟨[], cs, rfl, .nil, rfl⟩
  case case4 c cs hpair hne ih =>
      obtain ⟨k, hk, rfl⟩ := Option.map_eq_some_iff.mp h
      obtain ⟨body, rest, rfl, hbody, rfl⟩ := ih hk
      have hc : c ≠ '\\' := by
        rintro rfl
        cases body <;> exact hpair _ _ rfl rfl
      exact ⟨c :: body, rest, rfl, .plain hc hne hbody, rfl⟩

end

/-! ### The first fault -/

namespace Lexer

variable {line n : Nat} {c : Char} {cs before : List Char} {e : LexicalError} {t : Token}

/-- A token is passed, wherever the text stands. -/
theorem scan_token_behind (hc : isLayout c = false) (ht : Lexeme.next? c cs = some (t, n))
    (before : List Char) :
    scan (byteLength before) (advanceLine line (newlines before)) (c :: cs) =
      (scan (byteLength (before ++ c :: cs.take n))
        (advanceLine line (newlines (before ++ c :: cs.take n)))
        (cs.drop n)).map fun (toks, endLine) =>
          (if t = .comment then toks
            else ⟨settle t (cs.drop n),
              spanOf (byteLength before) (advanceLine line (newlines before)) c cs n⟩ :: toks,
                endLine) := by
  rw [scan_token hc ht, stop_spanOf, advanceLine_advanceLine, ← newlines_append]

theorem scan_token_eq_error (hc : isLayout c = false) (ht : Lexeme.next? c cs = some (t, n))
    (h : scan (byteLength before) (advanceLine line (newlines before)) (c :: cs) = .error e) :
    scan (byteLength (before ++ c :: cs.take n))
      (advanceLine line (newlines (before ++ c :: cs.take n)))
      (cs.drop n) = .error e := by
  rw [scan_token_behind hc ht] at h
  rcases hrest : scan (byteLength (before ++ c :: cs.take n))
      (advanceLine line (newlines (before ++ c :: cs.take n))) (cs.drop n) with e' | r
  · rw [hrest] at h
    exact congrArg _ (Except.error.inj h)
  · rw [hrest] at h
    cases h

/-- An error comes from a place where no lexeme starts, behind a text that is tokenized. -/
theorem scan_eq_error
    (h : scan (byteLength before) (advanceLine line (newlines before)) cs = .error e) :
    ∃ read c rest, cs = read ++ c :: rest ∧ isLayout c = false ∧ Lexeme.next? c rest = none ∧
      e = ⟨(faultAt c rest).1, spanOf (byteLength (before ++ read))
        (advanceLine line (newlines (before ++ read))) c rest (faultAt c rest).2⟩ ∧
      ∃ r, scan (byteLength before) (advanceLine line (newlines before)) read = .ok r := by
  induction cs using step_induction generalizing before with
  | nil => simp [scan] at h
  | blank c cs hc ih =>
      rw [scan_layout_behind hc] at h
      obtain ⟨read, d, rest, rfl, hd, hnext, he, r, hr⟩ := ih h
      refine ⟨c :: read, d, rest, rfl, hd, hnext, by simpa using he, r, ?_⟩
      rw [scan_layout_behind hc, hr]
  | fault c cs hc ht =>
      rw [scan_fault hc ht] at h
      refine ⟨[], c, cs, rfl, hc, ht, ?_, _, by rw [scan]⟩
      rw [List.append_nil]
      exact (Except.error.inj h).symm
  | token c cs t n hc ht ih =>
      obtain ⟨read, d, rest, hdrop, hd, hnext, he, r, hr⟩ := ih (scan_token_eq_error hc ht h)
      -- The token is read again where the text ends at the fault.
      have hsplit : cs.take n ++ read = cs.take (n + read.length) := by
        rw [List.take_add, hdrop, List.take_left]
      have ht' : Lexeme.next? c (cs.take n ++ read) = some (t, n) := by
        rw [hsplit]
        exact next?_take ht (Nat.le_add_right n read.length)
      have hlength : (cs.take n).length = n := List.length_take_of_le (next?_le ht)
      refine ⟨c :: (cs.take n ++ read), d, rest, ?_, hd, hnext, by simpa using he, ?_⟩
      · rw [List.cons_append, List.append_assoc, ← hdrop, List.take_append_drop]
      · rw [scan_token_behind hc ht', List.take_left' hlength, List.drop_left' hlength, hr]
        exact ⟨_, rfl⟩

end Lexer

/-- The text is refused for what stands at the span: a part of it behind a text that is tokenized,
where no lexeme starts. -/
structure FirstFault (source : String) (line : Nat) (reason : String) (span : Span)
    (before part after : List Char) : Prop where
  text : source.toList = before ++ part ++ after
  start : span.start = byteLength before
  stop : span.stop = byteLength (before ++ part)
  line_eq : span.line = min lastLine (line + newlines before)
  start_lt_stop : span.start < span.stop
  stop_le : span.stop ≤ byteLength source.toList
  read : ∃ r, tokenize (String.ofList before) line = .ok r
  stuck : ∃ c cs, part ++ after = c :: cs ∧ isLayout c = false ∧ Lexeme.next? c cs = none
  /-- A quote that is not closed is at fault with all that follows it. -/
  unterminated : ∀ (what : Quotation) cs, part ++ after = what.mark :: cs →
    (¬∃ body rest, cs = body ++ what.mark :: rest ∧ Unclosing what.mark body) →
    reason = "unterminated " ++ what.text ∧ span.stop = byteLength source.toList
  /-- A quote that is closed is at fault through the closing quote. -/
  malformed : ∀ (what : Quotation) body rest,
      part ++ after = what.mark :: (body ++ what.mark :: rest) →
    Unclosing what.mark body →
    reason = "malformed escape sequence in " ++ what.text ∧
    part = what.mark :: (body ++ [what.mark])

theorem Quotation.mark_ne_backslash (what : Quotation) : what.mark ≠ '\\' := by
  cases what <;> decide

theorem faultAt_mark (what : Quotation) (cs : List Char) :
    faultAt what.mark cs = quotationFault what what.mark cs := by
  cases what <;> rfl

/-- Without a closing quote the fault covers the rest of the text. -/
theorem faultAt_unclosed {what : Quotation} {cs : List Char}
    (h : ¬∃ body rest, cs = body ++ what.mark :: rest ∧ Unclosing what.mark body) :
    faultAt what.mark cs = (.unterminated what, cs.length) := by
  have hnone : closingQuote? what.mark cs = none := by
    refine Option.eq_none_iff_forall_not_mem.mpr fun n hn => ?_
    obtain ⟨body, rest, heq, hbody, -⟩ := unclosing_of_closingQuote? hn
    exact h ⟨body, rest, heq, hbody⟩
  rw [faultAt_mark, quotationFault, hnone]

/-- With a closing quote the fault is an escape, and covers the quotation. -/
theorem faultAt_closed {what : Quotation} {body rest : List Char} (h : Unclosing what.mark body) :
    faultAt what.mark (body ++ what.mark :: rest) = (.malformedEscape what, body.length + 1) := by
  rw [faultAt_mark, quotationFault, h.closingQuote? what.mark_ne_backslash]

variable {source : String} {line : Nat} {c : Char} {before rest : List Char} {e : LexicalError}

/-- Where no lexeme starts there is a fault. -/
theorem firstFault_of_stuck (htext : source.toList = before ++ c :: rest) (hc : isLayout c = false)
    (hnext : Lexeme.next? c rest = none)
    (hread : ∃ r, tokenize (String.ofList before) line = .ok r) :
    FirstFault source line (faultAt c rest).1.reason
      (spanOf (byteLength before) (advanceLine line (newlines before)) c rest (faultAt c rest).2)
      before (c :: rest.take (faultAt c rest).2) (rest.drop (faultAt c rest).2) := by
  have hsplit : c :: rest.take (faultAt c rest).2 ++ rest.drop (faultAt c rest).2 = c :: rest := by
    rw [List.cons_append, List.take_append_drop]
  have hstop := stop_spanOf before (advanceLine line (newlines before)) c rest (faultAt c rest).2
  have hpos := byteLength_pos (List.cons_ne_nil c (rest.take (faultAt c rest).2))
  exact {
    text := by rw [List.append_assoc, hsplit, htext]
    start := rfl
    stop := hstop
    line_eq := rfl
    start_lt_stop := Nat.lt_add_of_pos_right hpos
    stop_le := by
      rw [hstop, htext, ← hsplit, ← List.append_assoc, byteLength_append (before ++ _)]
      exact Nat.le_add_right _ _
    read := hread
    stuck := ⟨c, rest, hsplit, hc, hnext⟩
    unterminated := by
      rw [hsplit]
      rintro what cs heq hopen
      obtain ⟨rfl, rfl⟩ := List.cons.inj heq
      have hfault : faultAt what.mark rest = _ := faultAt_unclosed hopen
      rw [hstop, hfault, List.take_length, htext]
      exact ⟨rfl, rfl⟩
    malformed := by
      rw [hsplit]
      rintro what body behind heq hbody
      obtain ⟨rfl, rfl⟩ := List.cons.inj heq
      rw [faultAt_closed hbody]
      refine ⟨rfl, ?_⟩
      rw [List.append_cons, List.take_left' (by simp)] }

/-- A text that cannot be tokenized has a first fault, and the error is about it. -/
theorem tokenize_firstFault (hline : line ≤ lastLine) (h : tokenize source line = .error e) :
    ∃ reason before part after, (SourceError.lexical e).diagnostic = .lexical reason e.span ∧
      FirstFault source line reason e.span before part after := by
  have hstart : advanceLine line (newlines []) = line := advanceLine_zero hline
  have hscan : scan (byteLength []) (advanceLine line (newlines [])) source.toList = .error e := by
    rw [hstart]
    exact h
  obtain ⟨before, c, rest, htext, hc, hnext, rfl, r, hr⟩ := scan_eq_error hscan
  rw [hstart] at hr
  have hread : tokenize (String.ofList before) line = .ok r := by
    rw [tokenize, String.toList_ofList]
    exact hr
  exact ⟨_, _, _, _, rfl, firstFault_of_stuck htext hc hnext ⟨r, hread⟩⟩

/-- An atom behind a line feed, with a hidden quote and an escape that has no digits. -/
theorem tokenize_firstFault_atom :
    7 ≤ lastLine ∧ tokenize "[\n'é\\'\\x' | T]" 7 = .error ⟨.malformedEscape .atom, ⟨2, 10, 8⟩⟩ ∧
      ∃ reason before part after,
        (SourceError.lexical ⟨.malformedEscape .atom, ⟨2, 10, 8⟩⟩).diagnostic =
            .lexical reason ⟨2, 10, 8⟩ ∧
          FirstFault "[\n'é\\'\\x' | T]" 7 reason ⟨2, 10, 8⟩ before part after :=
  have hline : 7 ≤ lastLine := by decide
  have htokenize : tokenize "[\n'é\\'\\x' | T]" 7 =
      .error ⟨.malformedEscape .atom, ⟨2, 10, 8⟩⟩ := by decide +kernel
  ⟨hline, htokenize, tokenize_firstFault hline htokenize⟩

end ErlangFragment
