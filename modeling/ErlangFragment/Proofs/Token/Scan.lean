import ErlangFragment.Proofs.Token.Position
import ErlangFragment.Proofs.Token.Stability

/-! The run of the lexer as a relation: blanks, comments and lexemes, one after the other. -/

namespace ErlangFragment

open Lexeme Lexer

namespace Lexer

/-- What the lexer goes through from an offset on, one lexeme after the other. -/
inductive Scans : Nat → List Char → List (Located Token) → Prop
  | nil {offset} : Scans offset [] []
  | blank {offset c cs ts} : isLayout c = true → Scans (offset + c.utf8Size) cs ts →
      Scans offset (c :: cs) ts
  | comment {offset body rest ts} : '\n' ∉ body → Avoids (· ≠ '\n') rest →
      Scans (offset + byteLength ('%' :: body)) rest ts → Scans offset ('%' :: (body ++ rest)) ts
  | token {offset c cs rest ts} {t : Token} {s : Span} : isLayout c = false →
      Lexeme.next? c (cs ++ rest) = some (t, cs.length) → t ≠ .comment → s.start = offset →
      s.stop = offset + byteLength (c :: cs) → Scans s.stop rest ts →
      Scans offset (c :: (cs ++ rest)) (⟨settle t rest, s⟩ :: ts)

end Lexer

/-- Blanks, and comments with the line feed that ends them. -/
inductive Filler : List Char → Prop
  | nil : Filler []
  | blank {c cs} : isLayout c = true → Filler cs → Filler (c :: cs)
  | comment {body cs} : '\n' ∉ body → Filler cs → Filler ('%' :: (body ++ '\n' :: cs))

namespace Filler

variable {cs ds : List Char}

theorem startsGap_head (h : Filler cs) : cs = [] ∨ ∃ c ds, cs = c :: ds ∧ startsGap c = true := by
  cases h with
  | nil => exact .inl rfl
  | blank hc _ => exact .inr ⟨_, _, rfl, by simp [startsGap, hc]⟩
  | comment _ _ => exact .inr ⟨_, _, rfl, rfl⟩

theorem append (h : Filler cs) (hds : Filler ds) : Filler (cs ++ ds) := by
  induction h with
  | nil => exact hds
  | blank hc _ ih => exact .blank hc ih
  | comment hbody _ ih =>
      rw [List.cons_append, List.append_assoc]
      exact .comment hbody ih

end Filler

section

variable {offset line endLine : Nat} {cs : List Char} {ts : List (Located Token)}

theorem isWhiteSpace_of_isLayout {c : Char} (h : isLayout c = true) : isWhiteSpace c = true := by
  have hmem : c ∈ [' ', '\t', '\n', '\x0c', '\r'] := by simpa [isLayout, or_assoc] using h
  exact List.all_eq_true.mp (by decide : ([' ', '\t', '\n', '\x0c', '\r'].all isWhiteSpace) =
    true) c hmem

/-- A comment starts with a percent sign and goes on to the end of the line. -/
theorem next?_eq_comment {c : Char} {n : Nat} (h : Lexeme.next? c cs = some (.comment, n)) :
    c = '%' ∧ '\n' ∉ cs.take n ∧ Avoids (· ≠ '\n') (cs.drop n) := by
  obtain ⟨kind, hl, htoken⟩ := next?_eq_some h
  have hkind : kind = .comment := by
    cases kind <;> simp_all [Lexeme.token?, Lexeme.wordToken, Lexeme.basedToken?,
      Lexeme.characterToken?]
    all_goals split at htoken <;> simp_all
  subst hkind
  obtain ⟨rfl, rfl⟩ : c = '%' ∧ (cs.takeWhile (· ≠ '\n')).length = n := by
    cases longest?_heads hl with
    | number _ hnumber =>
        have hkind := number_kind cs
        simp [hnumber] at hkind
    | comment hc => exact ⟨hc, rfl⟩
  obtain ⟨body, rest, rfl, hbody, hrest⟩ := exists_run (· ≠ '\n') cs
  rw [takeWhile_append_of_avoids hbody hrest, List.take_left, List.drop_left]
  refine ⟨rfl, fun hmem => ?_, hrest⟩
  simpa using hbody _ hmem

theorem next?_comment {body rest : List Char} (hbody : '\n' ∉ body)
    (hrest : Avoids (· ≠ '\n') rest) :
    Lexeme.next? '%' (body ++ rest) = some (.comment, body.length) := by
  have hrun : (body ++ rest).takeWhile (· ≠ '\n') = body :=
    takeWhile_append_of_avoids (fun c hc => decide_eq_true fun heq => hbody (heq ▸ hc)) hrest
  refine next?_of_longest? .comment ?_ rfl
  rw [show Lexeme.longest? '%' (body ++ rest) =
    some (.comment, ((body ++ rest).takeWhile (· ≠ '\n')).length) from rfl, hrun]

theorem scan_token_eq_ok {c : Char} {t : Token} {n : Nat} (hc : isLayout c = false)
    (ht : Lexeme.next? c cs = some (t, n)) (h : scan offset line (c :: cs) = .ok (ts, endLine)) :
    ∃ us, scan (spanOf offset line c cs n).stop (advanceLine line (newlines (c :: cs.take n)))
        (cs.drop n) = .ok (us, endLine) ∧
      ts = if t = .comment then us else
        ⟨settle t (cs.drop n), spanOf offset line c cs n⟩ :: us := by
  rw [scan_token hc ht] at h
  rcases hrest : scan (spanOf offset line c cs n).stop
    (advanceLine line (newlines (c :: cs.take n)))
      (cs.drop n) with e | ⟨us, endLine'⟩
  · simp [hrest, Except.map] at h
  · obtain ⟨rfl, rfl⟩ : _ = ts ∧ endLine' = endLine := by simpa [hrest, Except.map] using h
    exact ⟨us, rfl, rfl⟩

/-- A text that can be read consists of blanks, comments and lexemes. -/
theorem scan_scans (h : scan offset line cs = .ok (ts, endLine)) : Scans offset cs ts := by
  induction cs using step_induction generalizing offset line ts with
  | nil =>
      rw [scan] at h
      obtain ⟨rfl, -⟩ : [] = ts ∧ line = endLine := by simpa using h
      exact .nil
  | blank c cs hc ih =>
      rw [scan_layout hc] at h
      exact .blank hc (ih h)
  | fault c cs hc ht => simp [scan_fault hc ht] at h
  | token c cs t n hc ht ih =>
      obtain ⟨us, hrest, rfl⟩ := scan_token_eq_ok hc ht h
      have hscans := ih hrest
      have hsplit : cs.take n ++ cs.drop n = cs := List.take_append_drop n cs
      have hn : (cs.take n).length = n := List.length_take_of_le (next?_le ht)
      by_cases hcomment : t = .comment
      · subst hcomment
        obtain ⟨rfl, hbody, havoids⟩ := next?_eq_comment ht
        rw [if_pos rfl, ← hsplit]
        exact .comment hbody havoids hscans
      · rw [if_neg hcomment]
        have htoken : Lexeme.next? c (cs.take n ++ cs.drop n) = some (t, (cs.take n).length) := by
          rw [hsplit, hn, ht]
        have h := Scans.token (s := spanOf offset line c cs n) hc htoken hcomment rfl rfl hscans
        rwa [hsplit] at h

end

/-! ### Texts that end behind a token -/

section

variable {c : Char} {n k : Nat} {cs : List Char} {t : Token}

/-- A token is the same if the text ends anywhere behind it. -/
theorem next?_take (h : Lexeme.next? c cs = some (t, n)) (hk : n ≤ k) :
    Lexeme.next? c (cs.take k) = some (t, n) := by
  by_cases hcomment : t = .comment
  · subst hcomment
    obtain ⟨rfl, hbody, hrest⟩ := next?_eq_comment h
    have hsplit : cs.take k = cs.take n ++ (cs.drop n).take (k - n) := by
      rw [← List.take_add, Nat.add_sub_cancel' hk]
    have havoids : Avoids (· ≠ '\n') ((cs.drop n).take (k - n)) :=
      fun d hd => hrest d (by rw [List.head?_take] at hd; split at hd <;> simp_all)
    have hnext := next?_comment hbody havoids
    rwa [← hsplit, List.length_take_of_le (next?_le h)] at hnext
  · exact next?_breaksOff (.cut hk cs) h hcomment

/-- The text is this token and nothing else. -/
def Spells (text : List Char) (t : Token) : Prop :=
  lex (String.ofList text) = .ok [⟨t, wholeSpan (String.ofList text)⟩]

/-- A text spells one token if its first lexeme is all of it. -/
theorem spells_iff (hc : isLayout c = false) (hpercent : c ≠ '%') :
    Spells (c :: cs) t ↔ ∃ u, Lexeme.next? c cs = some (u, cs.length) ∧ settle u [] = t := by
  have hlex : lex (String.ofList (c :: cs)) = (scan 0 1 (c :: cs)).map Prod.fst := by
    rw [lex, tokenize, String.toList_ofList]
  rw [Spells, hlex]
  constructor
  · intro h
    rcases hnext : Lexeme.next? c cs with _ | ⟨u, n⟩
    · rw [scan_fault hc hnext] at h
      cases h
    have hcomment : u ≠ .comment := by
      rintro rfl
      exact hpercent (next?_eq_comment hnext).1
    rcases hscan : scan 0 1 (c :: cs) with e | ⟨ts, endLine⟩
    · rw [hscan] at h
      cases h
    obtain ⟨us, -, hts⟩ := scan_token_eq_ok hc hnext hscan
    obtain rfl : ts = [⟨t, wholeSpan (String.ofList (c :: cs))⟩] := by
      rw [hscan] at h
      exact Except.ok.inj h
    rw [if_neg hcomment, List.cons.injEq, Located.mk.injEq] at hts
    obtain ⟨⟨rfl, hspan⟩, -⟩ := hts
    -- The token ends where the text does, so that it takes all characters of it.
    have hlength : byteLength (c :: cs) = byteLength (c :: cs.take n) := by
      have hstop := congrArg Span.stop hspan
      simpa [wholeSpan, spanOf] using hstop
    have hdrop : cs.drop n = [] := by
      by_contra hne
      have hpos := byteLength_pos hne
      have hsplit := byteLength_append (c :: cs.take n) (cs.drop n)
      rw [List.cons_append, List.take_append_drop] at hsplit
      omega
    obtain rfl : n = cs.length :=
      Nat.le_antisymm (next?_le hnext) (List.drop_eq_nil_iff.mp hdrop)
    exact ⟨u, rfl, by rw [hdrop]⟩
  · rintro ⟨u, hnext, rfl⟩
    have hcomment : u ≠ .comment := by
      rintro rfl
      exact hpercent (next?_eq_comment hnext).1
    have hend (offset line : Nat) : scan offset line [] = .ok ([], line) := by rw [scan]
    rw [scan_token hc hnext, List.drop_length, hend]
    simp [Except.map, hcomment, wholeSpan, spanOf]

theorem settle_eq {rest : List Char} (h : settle t rest ≠ .terminator) : settle t rest = t := by
  rw [settle] at h ⊢
  split at h
  · exact absurd rfl h
  · next hdot => exact if_neg hdot

/-- Dots apart, a text is a token exactly if its first lexeme is that token and takes all of it. -/
theorem spells_iff_next? (hc : isLayout c = false) (hpercent : c ≠ '%')
    (hterminator : t ≠ .terminator) (hdot : t ≠ .symbol .dot) :
    Spells (c :: cs) t ↔ Lexeme.next? c cs = some (t, cs.length) := by
  rw [spells_iff hc hpercent]
  constructor
  · rintro ⟨u, hnext, hsettle⟩
    obtain rfl : u = t := (settle_eq (hsettle ▸ hterminator)).symm.trans hsettle
    exact hnext
  · exact fun hnext => ⟨t, hnext, by simp [settle, hdot]⟩

end

end ErlangFragment
