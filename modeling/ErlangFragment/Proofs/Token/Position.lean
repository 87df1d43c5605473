import ErlangFragment.Token.Lexer
import Mathlib.Data.List.Basic

/-! Where tokens stand in the text. Spans begin and end between characters, and their line is the
one that the line feeds before them lead to. -/

namespace ErlangFragment

theorem byteLength_append (cs ds : List Char) :
    byteLength (cs ++ ds) = byteLength cs + byteLength ds := by
  induction cs with
  | nil => simp [byteLength]
  | cons c cs ih => simp [byteLength, ih, Nat.add_assoc]

theorem byteLength_pos {cs : List Char} (h : cs ≠ []) : 0 < byteLength cs := by
  obtain ⟨c, cs, rfl⟩ := List.exists_cons_of_ne_nil h
  have hpos := c.utf8Size_pos
  rw [byteLength]
  omega

theorem newlines_append (cs ds : List Char) : newlines (cs ++ ds) = newlines cs + newlines ds :=
  List.count_append

/-- Lines add up, also where the last one has been reached. -/
theorem advanceLine_advanceLine (line n k : Nat) :
    advanceLine (advanceLine line n) k = advanceLine line (n + k) := by
  simp only [advanceLine]
  omega

theorem advanceLine_zero {line : Nat} (h : line ≤ lastLine) : advanceLine line 0 = line := by
  simp only [advanceLine]
  omega

namespace Span

/-- The span marks a part of the text, which has its first character on `line`. -/
def Marks (text : List Char) (line : Nat) (s : Span) : Prop :=
  ∃ before part after, text = before ++ part ++ after ∧ s.start = byteLength before ∧
    s.stop = byteLength (before ++ part) ∧ s.line = advanceLine line (newlines before)

variable {text : List Char} {line : Nat} {a b : Span}

theorem Marks.start_le_stop (h : a.Marks text line) : a.start ≤ a.stop := by
  obtain ⟨before, part, after, -, hstart, hstop, -⟩ := h
  rw [hstart, hstop, byteLength_append]
  omega

/-- What lies between two marked parts can be marked together with them. -/
theorem Marks.through (ha : a.Marks text line) (hb : b.Marks text line) :
    (a.through b).Marks text line := by
  by_cases hle : b.stop ≤ a.stop
  · have heq : a.through b = a := by
      cases a
      simp only [Span.through, Span.mk.injEq, true_and, and_true]
      exact Nat.max_eq_right hle
    rwa [heq]
  · obtain ⟨p, q, r, htext, hstart, hstop, hline⟩ := ha
    obtain ⟨p', q', r', htext', -, hstop', -⟩ := hb
    have hpre : p ++ q <+: text := ⟨r, htext.symm⟩
    have hpre' : p' ++ q' <+: text := ⟨r', htext'.symm⟩
    -- Of two beginnings of the text the one with more bytes goes further.
    have hlonger : p ++ q <+: p' ++ q' := by
      rcases List.prefix_or_prefix_of_prefix hpre hpre' with h | ⟨rest, hrest⟩
      · exact h
      · rw [hstop, hstop', ← hrest, byteLength_append _ rest] at hle
        omega
    obtain ⟨rest, hrest⟩ := hlonger
    refine ⟨p, q ++ rest, r', ?_, hstart, ?_, hline⟩
    · rw [← List.append_assoc p, hrest, htext']
    · rw [← List.append_assoc, hrest, ← hstop', Span.through]
      exact Nat.max_eq_left (Nat.le_of_not_le hle)

/-- A place in the text has a span without width. -/
theorem marks_point {before after : List Char} (h : text = before ++ after) {s : Nat}
    (hs : s = byteLength before) : Marks text line ⟨s, s, advanceLine line (newlines before)⟩ :=
  ⟨before, [], after, by simpa using h, hs, by simpa using hs, rfl⟩

end Span

/-- The tokens stand in the text after each other, from `low` through `high`. -/
def Ordered (text : List Char) (line : Nat) : Nat → List (Located Token) → Nat → Prop
  | low, [], high => low ≤ high
  | low, t :: ts, high =>
    t.span.Marks text line ∧ low ≤ t.span.start ∧ Ordered text line t.span.stop ts high

namespace Ordered

variable {text : List Char} {line low low' high high' : Nat} {ts us : List (Located Token)}

theorem le (h : Ordered text line low ts high) : low ≤ high := by
  induction ts generalizing low with
  | nil => exact h
  | cons t ts ih =>
      obtain ⟨hmarks, hlow, h⟩ := h
      have := hmarks.start_le_stop
      have := ih h
      omega

theorem mono (h : Ordered text line low ts high) (hlow : low' ≤ low) (hhigh : high ≤ high') :
    Ordered text line low' ts high' := by
  induction ts generalizing low low' with
  | nil => exact Nat.le_trans hlow (Nat.le_trans h hhigh)
  | cons t ts ih =>
      obtain ⟨hmarks, hstart, h⟩ := h
      exact ⟨hmarks, Nat.le_trans hlow hstart, ih h (Nat.le_refl _)⟩

/-- Tokens that stand before others. -/
theorem append (h : Ordered text line low ts low') (h' : Ordered text line low' us high) :
    Ordered text line low (ts ++ us) high := by
  induction ts generalizing low with
  | nil => exact h'.mono h (Nat.le_refl _)
  | cons t ts ih => exact ⟨h.1, h.2.1, ih h.2.2⟩

theorem split (h : Ordered text line low (ts ++ us) high) :
    ∃ mid, Ordered text line low ts mid ∧ Ordered text line mid us high := by
  induction ts generalizing low with
  | nil => exact ⟨low, Nat.le_refl _, h⟩
  | cons t ts ih =>
      obtain ⟨mid, hts, hus⟩ := ih h.2.2
      exact ⟨mid, ⟨h.1, h.2.1, hts⟩, hus⟩

end Ordered

namespace Lexer

/-! ### One step of the lexer -/

section

variable {offset line : Nat} {c : Char} {cs : List Char}

theorem scan_layout (hc : isLayout c = true) :
    scan offset line (c :: cs) =
      scan (offset + c.utf8Size) (if c = '\n' then advanceLine line 1 else line) cs := by
  rw [scan, if_pos hc]

theorem scan_fault (hc : isLayout c = false) (h : Lexeme.next? c cs = none) :
    scan offset line (c :: cs) =
      .error ⟨(faultAt c cs).1, spanOf offset line c cs (faultAt c cs).2⟩ := by
  rw [scan, if_neg (by simp [hc]), h]

theorem scan_token {t : Token} {n : Nat} (hc : isLayout c = false)
    (h : Lexeme.next? c cs = some (t, n)) :
    scan offset line (c :: cs) =
      (scan (spanOf offset line c cs n).stop (advanceLine line (newlines (c :: cs.take n)))
        (cs.drop n)).map fun (toks, endLine) =>
          (if t = .comment then toks
            else ⟨settle t (cs.drop n), spanOf offset line c cs n⟩ :: toks, endLine) := by
  rw [scan, if_neg (by simp [hc]), h]
  cases hrest : scan (spanOf offset line c cs n).stop (advanceLine line (newlines (c :: cs.take n)))
      (cs.drop n) with
  | error e => simp [hrest, Except.map]
  | ok r => by_cases ht : t = .comment <;> simp [hrest, Except.map, ht]

/-- A blank is passed, wherever the text stands. -/
theorem scan_layout_behind (hc : isLayout c = true) (before : List Char) :
    scan (byteLength before) (advanceLine line (newlines before)) (c :: cs) =
      scan (byteLength (before ++ [c])) (advanceLine line (newlines (before ++ [c]))) cs := by
  have hline : (if c = '\n' then advanceLine (advanceLine line (newlines before)) 1
      else advanceLine line (newlines before)) = advanceLine line (newlines (before ++ [c])) := by
    rw [newlines_append]
    split
    · next hc => rw [advanceLine_advanceLine, hc]; rfl
    · next hc => simp [newlines, hc]
  have hoffset : byteLength before + c.utf8Size = byteLength (before ++ [c]) := by
    simp [byteLength_append, byteLength]
  rw [scan_layout hc, hline, hoffset]

theorem stop_spanOf (before : List Char) (line : Nat) (c : Char) (cs : List Char) (n : Nat) :
    (spanOf (byteLength before) line c cs n).stop = byteLength (before ++ c :: cs.take n) := by
  rw [byteLength_append, spanOf]

/-- The steps of the lexer lead through every text, up to a place where no lexeme starts. -/
@[elab_as_elim] theorem step_induction {motive : List Char → Prop} (nil : motive [])
    (blank : ∀ c cs, isLayout c = true → motive cs → motive (c :: cs))
    (fault : ∀ c cs, isLayout c = false → Lexeme.next? c cs = none → motive (c :: cs))
    (token : ∀ c cs t n, isLayout c = false → Lexeme.next? c cs = some (t, n) → motive (cs.drop n) →
      motive (c :: cs)) (cs : List Char) : motive cs := by
  induction hlen : cs.length using Nat.strongRecOn generalizing cs with
  | ind len ih =>
      subst hlen
      rcases cs with _ | ⟨c, cs⟩
      · exact nil
      rcases hc : isLayout c with _ | _
      · rcases ht : Lexeme.next? c cs with _ | ⟨t, n⟩
        · exact fault c cs hc ht
        · exact token c cs t n hc ht (ih _
            (Nat.lt_succ_of_le (List.drop_sublist n cs).length_le) _ rfl)
      · exact blank c cs hc (ih _ (Nat.lt_succ_self _) cs rfl)

end

/-! ### Spans -/

/-- The token is the longest lexeme at some place of the text. -/
def IsLexeme (text : List Char) (line : Nat) (t : Located Token) : Prop :=
  ∃ before c cs u n, text = before ++ c :: cs ∧ isLayout c = false ∧ u ≠ .comment ∧
    Lexeme.next? c cs = some (u, n) ∧
    t = ⟨settle u (cs.drop n), spanOf (byteLength before)
      (advanceLine line (newlines before)) c cs n⟩

theorem IsLexeme.start_lt_stop {text : List Char} {line : Nat} {t : Located Token}
    (h : IsLexeme text line t) :
    t.span.start < t.span.stop := by
  obtain ⟨before, c, cs, u, n, -, -, -, -, rfl⟩ := h
  rw [stop_spanOf, byteLength_append]
  exact Nat.lt_add_of_pos_right (byteLength_pos (List.cons_ne_nil _ _))

/-- What is read of the text from `low` on: lexemes that stand where their spans say, with the line
that the text ends on, or an error with the part of the text that it is about. -/
def ReadsOff (text : List Char) (line low : Nat) :
    Except LexicalError (List (Located Token) × Nat) → Prop
  | .ok (toks, endLine) =>
    Ordered text line low toks (byteLength text) ∧ (∀ t ∈ toks, IsLexeme text line t) ∧
      endLine = advanceLine line (newlines text)
  | .error e => e.span.Marks text line

variable {text before cs : List Char} {line low low' : Nat}

theorem ReadsOff.mono {r : Except LexicalError (List (Located Token) × Nat)}
    (h : ReadsOff text line low r) (hlow : low' ≤ low) : ReadsOff text line low' r := by
  cases r with
  | error _ => exact h
  | ok _ => exact ⟨h.1.mono hlow (Nat.le_refl _), h.2⟩

/-- One more token in front, or a comment, which is left out. -/
theorem ReadsOff.token {r : Except LexicalError (List (Located Token) × Nat)} {t u : Token}
    {s : Span} (h : ReadsOff text line s.stop r) (hs : s.Marks text line) (hlow : low ≤ s.start)
    (ht : t ≠ .comment → IsLexeme text line ⟨u, s⟩) :
    ReadsOff text line low
      (r.map fun (toks, endLine) => (if t = .comment then toks else ⟨u, s⟩ :: toks, endLine)) := by
  cases r with
  | error _ => exact h
  | ok r =>
      obtain ⟨hordered, hmem, hend⟩ := h
      by_cases hc : t = .comment
      · simp only [Except.map, hc, if_true]
        exact ⟨hordered.mono (Nat.le_trans hlow hs.start_le_stop) (Nat.le_refl _), hmem, hend⟩
      · simp only [Except.map, hc, if_false]
        exact ⟨⟨hs, hlow, hordered⟩, List.forall_mem_cons.mpr ⟨ht hc, hmem⟩, hend⟩

theorem marks_spanOf {c : Char} (htext : text = before ++ c :: cs) (n : Nat) :
    (spanOf (byteLength before) (advanceLine line (newlines before)) c cs n).Marks text line := by
  refine ⟨before, c :: cs.take n, cs.drop n, ?_, rfl, ?_, rfl⟩
  · rw [htext, List.append_assoc, List.cons_append, List.take_append_drop]
  · rw [byteLength_append, spanOf]

/-- Reading the rest of a text, from the offset and the line of what stands before it. The induction
is on the length of the rest. -/
theorem scan_readsOff (htext : text = before ++ cs) :
    ReadsOff text line (byteLength before)
      (scan (byteLength before) (advanceLine line (newlines before)) cs) := by
  induction cs using step_induction generalizing before with
  | nil =>
      rw [List.append_nil] at htext
      subst htext
      rw [scan]
      exact ⟨Nat.le_refl _, List.forall_mem_nil _, rfl⟩
  | blank c cs hc ih =>
      rw [scan_layout_behind hc]
      refine (ih (by simp [htext])).mono ?_
      rw [byteLength_append]
      omega
  | fault c cs hc ht =>
      rw [scan_fault hc ht]
      exact marks_spanOf htext _
  | token c cs t n hc ht ih =>
      have htext' : text = (before ++ c :: cs.take n) ++ cs.drop n := by
        rw [htext, List.append_assoc, List.cons_append, List.take_append_drop]
      have hnext := ih htext'
      rw [← stop_spanOf before (advanceLine line (newlines before))] at hnext
      rw [scan_token hc ht, advanceLine_advanceLine, ← newlines_append]
      exact hnext.token (marks_spanOf htext n) (Nat.le_refl _) fun hu =>
        ⟨before, c, cs, t, n, htext, hc, hu, ht, rfl⟩

end Lexer

variable {source : String} {line : Nat}

theorem tokenize_readsOff (hline : line ≤ lastLine) :
    Lexer.ReadsOff source.toList line 0 (tokenize source line) := by
  have htext : source.toList = [] ++ source.toList := rfl
  have h : Lexer.ReadsOff source.toList line _ _ := Lexer.scan_readsOff htext
  rwa [show newlines [] = 0 from rfl, advanceLine_zero hline] at h

section

variable {toks : List (Located Token)} {endLine : Nat}

theorem tokenize_ordered (hline : line ≤ lastLine)
    (h : tokenize source line = .ok (toks, endLine)) :
    Ordered source.toList line 0 toks (byteLength source.toList) ∧
      endLine = advanceLine line (newlines source.toList) := by
  have hread : Lexer.ReadsOff source.toList line 0 (tokenize source line) := tokenize_readsOff hline
  rw [h] at hread
  exact ⟨hread.1, hread.2.2⟩

theorem tokenize_isLexeme (hline : line ≤ lastLine)
    (h : tokenize source line = .ok (toks, endLine)) :
    ∀ t ∈ toks, Lexer.IsLexeme source.toList line t := by
  have hread : Lexer.ReadsOff source.toList line 0 (tokenize source line) := tokenize_readsOff hline
  rw [h] at hread
  exact hread.2.1

end

/-- The span of an error covers part of the text, on the line where that part begins. -/
theorem tokenize_error_marks {e : LexicalError} (hline : line ≤ lastLine)
    (h : tokenize source line = .error e) : e.span.Marks source.toList line := by
  have hread : Lexer.ReadsOff source.toList line 0 (tokenize source line) := tokenize_readsOff hline
  rwa [h] at hread

end ErlangFragment
