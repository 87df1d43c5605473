import ErlangFragment.Proofs.Token.Scan

/-! How the tokens of a text cover it. Between them there are blanks and comments, and each of them
is what its own part of the text is read as, where the dot within a form needs the text behind
it. -/

namespace ErlangFragment

open Lexeme Lexer

/-- The text has this one token from its first character through its last one. -/
def ReadsAlone (lexeme : List Char) (t : Token) : Prop :=
  ∀ line, tokenize (String.ofList lexeme) line =
    .ok ([⟨t, ⟨0, byteLength lexeme, line⟩⟩], advanceLine line (newlines lexeme))

/-- Behind `before`, which has its first character on `line`, the text is made up of these tokens
and of blanks and comments around them. -/
inductive Tiles (line : Nat) : List Char → List Char → List (Located Token) → Prop
  | filler {before gap} : Filler gap → Tiles line before gap []
  | comment {before gap body} : Filler gap → '\n' ∉ body → Tiles line before (gap ++ '%' :: body) []
  | token {before gap lexeme rest t ts} : Filler gap → lexeme ≠ [] →
      ReadsAlone lexeme t ∨ (t = .symbol .dot ∧ lexeme = ['.']) →
      Tiles line (before ++ gap ++ lexeme) rest ts →
      Tiles line before (gap ++ lexeme ++ rest)
        (⟨t, ⟨byteLength (before ++ gap), byteLength (before ++ gap ++ lexeme),
          advanceLine line (newlines (before ++ gap))⟩⟩ :: ts)

/-! ### Tokens on their own -/

section

variable {c : Char} {n : Nat} {cs : List Char} {t : Token}

theorem eq_dot_of_next? (h : Lexeme.next? c cs = some (.symbol .dot, n)) : c = '.' ∧ n = 0 := by
  obtain ⟨kind, hl, htoken⟩ := next?_eq_some h
  obtain rfl := eq_symbol_of_token? htoken
  obtain ⟨hs, rfl⟩ := longest?_symbol hl
  have hmem := Symbol.mem_matching.mp (Symbol.longest?_le hs).1
  exact ⟨(List.cons_prefix_cons.mp hmem).1.symm, rfl⟩

/-- A token that is read is also read from its lexeme alone. -/
theorem readsAlone_of_next? (hc : isLayout c = false) (ht : Lexeme.next? c cs = some (t, n))
    (hcomment : t ≠ .comment) : ReadsAlone (c :: cs.take n) (settle t []) := by
  intro line
  have hnext := next?_breaksOff (.cut (Nat.le_refl n) cs) ht hcomment
  rw [tokenize, String.toList_ofList, scan_token hc hnext]
  simp [scan, Except.map, hcomment, spanOf, List.take_take]

/-- A token is read again from its own text, except for a dot: without the text behind it a dot is a
terminator. -/
theorem readsAlone_or_dot (hc : isLayout c = false) (ht : Lexeme.next? c cs = some (t, n))
    (hcomment : t ≠ .comment) :
    ReadsAlone (c :: cs.take n) (settle t (cs.drop n)) ∨
      (settle t (cs.drop n) = .symbol .dot ∧ c :: cs.take n = ['.']) := by
  by_cases hdot : t = .symbol .dot ∧ endsForm (cs.drop n) = false
  · obtain ⟨rfl, hends⟩ := hdot
    obtain ⟨rfl, rfl⟩ := eq_dot_of_next? ht
    exact .inr ⟨by simpa [settle] using hends, rfl⟩
  · have hsettle : settle t (cs.drop n) = settle t [] := by
      by_cases heq : t = .symbol .dot
      · simp_all [settle, endsForm]
      · simp [settle, heq]
    rw [hsettle]
    exact .inl (readsAlone_of_next? hc ht hcomment)

end

/-! ### The whole text -/

/-- Blanks and comments in front of `rest`, which begins where the last comment ends if that one has
no line feed yet. -/
inductive GapBefore (rest : List Char) : List Char → Prop
  | filler {gap} : Filler gap → GapBefore rest gap
  | comment {gap body} : Filler gap → '\n' ∉ body → Avoids (· ≠ '\n') rest →
      GapBefore rest (gap ++ '%' :: body)

namespace GapBefore

variable {line : Nat} {c : Char} {cs gap : List Char}

theorem tiles (h : GapBefore [] gap) (before : List Char) : Tiles line before gap [] := by
  cases h with
  | filler hgap => exact .filler hgap
  | comment hgap hbody _ => exact .comment hgap hbody

theorem blank (h : GapBefore (c :: cs) gap) (hc : isLayout c = true) : Filler (gap ++ [c]) := by
  have hline : Filler [c] := .blank hc .nil
  cases h with
  | filler hgap => exact hgap.append hline
  | comment hgap hbody hrest =>
      obtain rfl : c = '\n' := by simpa using hrest
      rw [List.append_assoc, List.cons_append]
      exact hgap.append (.comment hbody .nil)

theorem filler_of_solid (h : GapBefore (c :: cs) gap) (hc : isLayout c = false) : Filler gap := by
  cases h with
  | filler hgap => exact hgap
  | comment _ _ hrest =>
      obtain rfl : c = '\n' := by simpa using hrest
      cases hc

end GapBefore

section

variable {line endLine : Nat} {before gap cs : List Char} {ts : List (Located Token)}

/-- Between two tokens, `gap` is what has been passed since the last one. -/
theorem scan_tiles (hgap : GapBefore cs gap)
    (h : scan (byteLength (before ++ gap)) (advanceLine line (newlines (before ++ gap))) cs =
      .ok (ts, endLine)) :
    Tiles line before (gap ++ cs) ts := by
  induction cs using step_induction generalizing before gap ts with
  | nil =>
      rw [scan] at h
      obtain ⟨rfl, -⟩ : [] = ts ∧ _ = endLine := by simpa using h
      rw [List.append_nil]
      exact hgap.tiles before
  | blank c cs hc ih =>
      rw [scan_layout_behind hc, List.append_assoc] at h
      simpa using ih (.filler (hgap.blank hc)) h
  | fault c cs hc ht => simp [scan_fault hc ht] at h
  | token c cs t n hc ht ih =>
      have hfiller := hgap.filler_of_solid hc
      have hsplit : c :: cs = c :: cs.take n ++ cs.drop n := by
        rw [List.cons_append, List.take_append_drop]
      obtain ⟨us, hrest, rfl⟩ := scan_token_eq_ok hc ht h
      rw [stop_spanOf, advanceLine_advanceLine, ← newlines_append] at hrest
      by_cases hcomment : t = .comment
      · subst hcomment
        obtain ⟨rfl, hbody, havoids⟩ := next?_eq_comment ht
        rw [List.append_assoc] at hrest
        rw [if_pos rfl, hsplit, ← List.append_assoc]
        exact ih (.comment hfiller hbody havoids) hrest
      · have htail : Tiles line (before ++ gap ++ c :: cs.take n) ([] ++ cs.drop n) us :=
          ih (.filler .nil) (by simpa using hrest)
        have h := Tiles.token hfiller (List.cons_ne_nil _ _)
            (readsAlone_or_dot hc ht hcomment) htail
        rw [if_neg hcomment, hsplit, ← List.append_assoc, spanOf, ← byteLength_append]
        exact h

end

namespace Tiles

variable {line : Nat} {before text : List Char} {ts : List (Located Token)}

/-- No token starts before the text that is read. -/
theorem le_start (h : Tiles line before text ts) : ∀ t ∈ ts, byteLength before ≤ t.span.start := by
  induction h with
  | filler _ => exact List.forall_mem_nil _
  | comment _ _ => exact List.forall_mem_nil _
  | token _ _ _ _ ih =>
      simp only [byteLength_append] at ih ⊢
      refine List.forall_mem_cons.mpr ⟨Nat.le_add_right _ _, fun t ht => ?_⟩
      have hle := ih t ht
      omega

theorem marks (h : Tiles line before text ts) :
    ∀ t ∈ ts, t.span.Marks (before ++ text) line ∧ t.span.start < t.span.stop := by
  induction h with
  | filler _ => exact List.forall_mem_nil _
  | comment _ _ => exact List.forall_mem_nil _
  | @token before gap lexeme rest t ts _ hne _ _ ih =>
      have htext : before ++ (gap ++ lexeme ++ rest) = before ++ gap ++ lexeme ++ rest := by simp
      rw [htext]
      refine List.forall_mem_cons.mpr ⟨⟨⟨_, lexeme, rest, rfl, rfl, rfl, rfl⟩, ?_⟩, ih⟩
      show byteLength (before ++ gap) < byteLength (before ++ gap ++ lexeme)
      rw [byteLength_append _ lexeme]
      exact Nat.lt_add_of_pos_right (byteLength_pos hne)

/-- Tokens do not overlap. -/
theorem pairwise (h : Tiles line before text ts) :
    ts.Pairwise fun t u => t.span.stop ≤ u.span.start := by
  induction h with
  | filler _ => exact .nil
  | comment _ _ => exact .nil
  | token _ _ _ h ih => exact .cons h.le_start ih

end Tiles

/-- The tokens of a text tile it. They are not empty and stand apart from each other, on the lines
that the line feeds in front of them lead to. -/
theorem tokenize_tiles {source : String} {line endLine : Nat} {ts : List (Located Token)}
    (hline : line ≤ lastLine) (h : tokenize source line = .ok (ts, endLine)) :
    Tiles line [] source.toList ts ∧
      (∀ t ∈ ts, t.span.Marks source.toList line ∧ t.span.start < t.span.stop) ∧
      ts.Pairwise (fun t u => t.span.stop ≤ u.span.start) ∧
      endLine = advanceLine line (newlines source.toList) := by
  have hscan : scan (byteLength ([] ++ [])) (advanceLine line (newlines ([] ++ []))) source.toList =
      .ok (ts, endLine) := by
    rw [List.append_nil, show newlines [] = 0 from rfl, advanceLine_zero hline]
    exact h
  have htiles : Tiles line [] source.toList ts := scan_tiles (.filler .nil) hscan
  exact ⟨htiles, htiles.marks, htiles.pairwise, (tokenize_ordered hline h).2⟩

/-- A dot within a form and one behind it, with comments around them. -/
theorem tokenize_tiles_dots :
    tokenize "% é\nX.y\"\n\".%z" 7 =
        .ok ([⟨.var "X", ⟨5, 6, 8⟩⟩, ⟨.symbol .dot, ⟨6, 7, 8⟩⟩, ⟨.atom "y", ⟨7, 8, 8⟩⟩,
          ⟨.string "\n", ⟨8, 11, 8⟩⟩, ⟨.terminator, ⟨11, 12, 9⟩⟩], 9) ∧
      Tiles 7 [] "% é\nX.y\"\n\".%z".toList
        [⟨.var "X", ⟨5, 6, 8⟩⟩, ⟨.symbol .dot, ⟨6, 7, 8⟩⟩, ⟨.atom "y", ⟨7, 8, 8⟩⟩,
          ⟨.string "\n", ⟨8, 11, 8⟩⟩, ⟨.terminator, ⟨11, 12, 9⟩⟩] := by
  have h : tokenize "% é\nX.y\"\n\".%z" 7 =
      .ok ([⟨.var "X", ⟨5, 6, 8⟩⟩, ⟨.symbol .dot, ⟨6, 7, 8⟩⟩, ⟨.atom "y", ⟨7, 8, 8⟩⟩,
        ⟨.string "\n", ⟨8, 11, 8⟩⟩, ⟨.terminator, ⟨11, 12, 9⟩⟩], 9) := by
    decide +kernel
  exact ⟨h, (tokenize_tiles (by decide) h).1⟩

end ErlangFragment
