import ErlangFragment.Proofs.Token.Scan

/-! Texts one after the other. Behind a text that ends with a line feed another one is read as if it
stood alone, but for its place: no lexeme reaches over that line feed, and it settles what the dot
before it is. -/

namespace ErlangFragment

open Lexeme Lexer Radix

/-! ### Line feeds behind a lexeme -/

section

variable {c : Char} {n : Nat} {cs : List Char}

/-- The last character of a quoted text is the quote. -/
theorem getLast?_of_quotedLength? {quote : Char} (h : quotedLength? quote cs = some n) :
    (cs.take n).getLast? = some quote := by
  fun_induction quotedLength? quote cs generalizing n
  case case1 => cases h
  case case2 => cases h
  case case3 c cs hc ih =>
      obtain ⟨k, hk, rfl⟩ := Option.map_eq_some_iff.mp h
      simp [List.getLast?_cons, ih hk]
  case case4 => cases h
  case case5 cs hc hq =>
      obtain rfl := Option.some.inj h
      rfl
  case case6 c cs hne hc hq ih =>
      obtain ⟨k, hk, rfl⟩ := Option.map_eq_some_iff.mp h
      simp [List.getLast?_cons, ih hk]

/-- A quotation that ends within a line does not need the line break. -/
theorem quotedLength?_le_line {quote : Char} (hquote : quote ≠ '\n')
    (h : quotedLength? quote (cs ++ ['\n']) = some n) : n ≤ cs.length := by
  have hlast := getLast?_of_quotedLength? h
  refine Nat.le_of_not_lt fun hlt => hquote ?_
  rw [List.take_of_length_le (by simp; omega)] at hlast
  simpa using hlast.symm

/-- Of the characters that may follow a `$` only a plain one and an escaped one can be a line
feed. -/
theorem characterLength?_le_line (h : characterLength? (cs ++ ['\n']) = some n) :
    n ≤ cs.length ∨ cs = [] ∨ cs = ['\\'] := by
  have hle := characterLength?_le h
  refine or_iff_not_imp_left.mpr fun hlt => ?_
  have hform := characterLength?_eq_some.mp h
  have hlast : (cs ++ ['\n']).getLast? = some '\n' := by simp
  have hall : (cs ++ ['\n']).length = n := by
    simp only [List.length_append, List.length_singleton] at hle ⊢
    omega
  generalize htext : cs ++ ['\n'] = text at hform hlast hall
  cases hform with
  | @plain c rest _ =>
      obtain rfl : rest = [] := by simpa using hall
      have hnil : cs ++ ['\n'] = [] ++ [c] := htext
      exact .inl (List.append_inj_left' hnil rfl)
  | @octal d ds rest hd hds _ _ =>
      obtain rfl : rest = [] := by simpa using hall
      rw [List.append_nil, List.getLast?_cons_cons] at hlast
      have hdigits : ∀ e ∈ d :: ds, isDigit 8 e = true := List.forall_mem_cons.mpr ⟨hd, hds⟩
      cases hdigits '\n' (List.mem_of_getLast? hlast)
  | @hexPair h' l rest _ hl =>
      obtain rfl : rest = [] := by simpa using hall
      obtain rfl := Option.some.inj hlast
      cases hl
  | @hexBraces ds rest _ _ =>
      obtain rfl : rest = [] := by simpa using hall
      simp [List.getLast?_cons] at hlast
  | @control c rest hc =>
      obtain rfl : rest = [] := by simpa using hall
      obtain rfl := Option.some.inj hlast
      cases hc
  | @other e rest _ _ _ =>
      obtain rfl : rest = [] := by simpa using hall
      obtain rfl := Option.some.inj hlast
      have hpair : cs ++ ['\n'] = ['\\'] ++ ['\n'] := htext
      exact .inr (List.append_inj_left' hpair rfl)

/-- A lexeme stops before the line break behind it. Comments aside, only a dollar sign takes a line
break along. -/
theorem longest?_le_line {kind : LexemeKind} (h : longest? c (cs ++ ['\n']) = some (kind, n))
    (hcomment : kind ≠ .comment) : n ≤ cs.length ∨ (c = '$' ∧ (cs = [] ∨ cs = ['\\'])) := by
  have hbreak : BreaksOff cs.length cs (cs ++ ['\n']) := by
    simpa using (BreaksOff.gap rfl : BreaksOff 0 [] ['\n']).append cs
  have hname : ((cs ++ ['\n']).takeWhile isNameChar).length ≤ cs.length := by
    have hle := (List.takeWhile_prefix isNameChar (l := cs)).length_le
    rwa [takeWhile_breaksOff solid_isNameChar hbreak hle]
  have hnumber : (number (cs ++ ['\n'])).2 ≤ cs.length := by
    rw [number_breaksOff hbreak (number_le cs)]
    exact number_le cs
  rw [longest?] at h
  repeat' split at h
  all_goals simp only [Option.some.injEq, Option.map_eq_some_iff, Prod.mk.injEq] at h
  · exact .inl (h.2 ▸ hname)
  · exact .inl (h.2 ▸ hname)
  · exact .inl (by simpa [h] using hnumber)
  · obtain ⟨k, hk, -, rfl⟩ := h
    exact (characterLength?_le_line hk).imp_right fun hcs => ⟨‹_›, hcs⟩
  · obtain ⟨k, hk, -, rfl⟩ := h
    exact .inl (quotedLength?_le_line (by decide) hk)
  · obtain ⟨k, hk, -, rfl⟩ := h
    exact .inl (quotedLength?_le_line (by decide) hk)
  · exact absurd h.1.symm hcomment
  · obtain ⟨s, hs, -, rfl⟩ := h
    have hmem := Symbol.mem_matching.mp (Symbol.longest?_le hs).1
    have hline : BreaksOff (cs.length + 1) (c :: cs) (c :: (cs ++ ['\n'])) := .cons hbreak
    have hle := (hline.right_prefix hmem (Symbol.startsGap_text s)).length_le
    rw [String.length_toList, List.length_cons] at hle
    exact .inl (by omega)

/-- A token that is read with a line feed behind it is the same with any text behind that. -/
theorem next?_append_line {t : Token} (h : next? c (cs ++ ['\n']) = some (t, n)) (bs : List Char) :
    next? c (cs ++ '\n' :: bs) = some (t, n) := by
  by_cases hcomment : t = .comment
  · subst hcomment
    obtain ⟨rfl, hbody, hrest⟩ := next?_eq_comment h
    have hn : n ≤ cs.length := by
      refine Nat.le_of_not_lt fun hlt => hbody ?_
      rw [List.take_of_length_le (by simp; omega)]
      simp
    rw [List.take_append_of_le_length hn] at hbody
    rw [List.drop_append_of_le_length hn] at hrest
    have hrest' : Avoids (· ≠ '\n') (cs.drop n ++ '\n' :: bs) := by
      simpa [Avoids, List.head?_append] using hrest
    have hnext := next?_comment hbody hrest'
    rwa [← List.append_assoc, List.take_append_drop, List.length_take_of_le hn] at hnext
  · obtain ⟨kind, hl, htoken⟩ := next?_eq_some h
    have hkind : kind ≠ .comment := by
      rintro rfl
      exact hcomment (Option.some.inj htoken).symm
    rcases longest?_le_line hl hkind with hn | ⟨rfl, rfl | rfl⟩
    · have hbreak : BreaksOff cs.length (cs ++ ['\n']) (cs ++ '\n' :: bs) :=
        (BreaksOff.gap rfl).append cs
      exact next?_breaksOff (hbreak.mono hn) h hcomment
    · cases hl
      have hplain : longest? '$' (['\n'] ++ bs) = some (.character, 1) := rfl
      exact next?_of_longest? .character hplain htoken
    · cases hl
      have hescaped : longest? '$' (['\\', '\n'] ++ bs) = some (.character, 2) := rfl
      exact next?_of_longest? .character hescaped htoken

end

/-! ### Whole lines -/

/-- Every line of the text has the line feed that ends it. -/
def WholeLines (cs : List Char) : Prop := ∀ c ∈ cs.getLast?, c = '\n'

namespace WholeLines

variable {c : Char} {cs : List Char}

theorem drop (h : WholeLines cs) (n : Nat) : WholeLines (cs.drop n) := by
  intro c hc
  by_cases hn : cs.length ≤ n
  · simp [List.drop_eq_nil_of_le hn] at hc
  · rw [List.getLast?_drop, if_neg hn] at hc
    exact h c hc

theorem tail (h : WholeLines (c :: cs)) : WholeLines cs := h.drop 1

/-- What is no blank has a line feed somewhere behind it. -/
theorem exists_concat (h : WholeLines (c :: cs)) (hc : isLayout c = false) :
    ∃ ds, cs = ds ++ ['\n'] := by
  rcases List.eq_nil_or_concat cs with rfl | ⟨ds, d, rfl⟩
  · obtain rfl : c = '\n' := h c rfl
    cases hc
  · obtain rfl : d = '\n' := h d (by simp [List.getLast?_cons])
    exact ⟨ds, List.concat_eq_append⟩

theorem ne_nil (h : WholeLines (c :: cs)) (hc : isLayout c = false) : cs ≠ [] := by
  obtain ⟨ds, rfl⟩ := h.exists_concat hc
  simp

end WholeLines

/-- Whether a dot ends a form is told by the character behind it. -/
theorem settle_append_of_ne_nil {c : Char} {n : Nat} {cs : List Char} {t : Token}
    (ht : next? c cs = some (t, n)) (hcs : cs ≠ []) (bs : List Char) :
    settle t (cs.drop n ++ bs) = settle t (cs.drop n) := by
  by_cases hdot : t = .symbol .dot
  · subst hdot
    obtain rfl := next?_dot ht
    obtain ⟨d, ds, rfl⟩ := List.exists_cons_of_ne_nil hcs
    rfl
  · simp [settle, hdot]

section

variable {offset line endLine : Nat} {as : List Char} {ts : List (Located Token)}

/-- Behind whole lines a text is read on from where they end. -/
theorem scan_append (hlines : WholeLines as) (h : scan offset line as = .ok (ts, endLine))
    (bs : List Char) :
    scan offset line (as ++ bs) =
      (scan (offset + byteLength as) endLine bs).map fun (us, last) => (ts ++ us, last) := by
  induction as using step_induction generalizing offset line ts with
  | nil =>
      obtain ⟨rfl, rfl⟩ : [] = ts ∧ line = endLine := by simpa [scan] using h
      cases hb : scan offset line bs <;> simp [byteLength, hb, Except.map]
  | blank c cs hc ih =>
      rw [scan_layout hc] at h
      rw [List.cons_append, scan_layout hc, ih hlines.tail h, byteLength, Nat.add_assoc]
  | fault c cs hc ht => simp [scan_fault hc ht] at h
  | token c cs t n hc ht ih =>
      obtain ⟨us, hrest, rfl⟩ := scan_token_eq_ok hc ht h
      have hn := next?_le ht
      -- The token stands before a line feed, which is the last character of the first text.
      have hnext : Lexeme.next? c (cs ++ bs) = some (t, n) := by
        obtain ⟨ds, rfl⟩ := hlines.exists_concat hc
        simpa using next?_append_line ht bs
      have hoffset : (spanOf offset line c cs n).stop + byteLength (cs.drop n) =
          offset + byteLength (c :: cs) := by
        rw [spanOf, Nat.add_assoc, ← byteLength_append, List.cons_append, List.take_append_drop]
      have hspan : spanOf offset line c (cs ++ bs) n = spanOf offset line c cs n := by
        rw [spanOf, spanOf, List.take_append_of_le_length hn]
      rw [List.cons_append, scan_token hc hnext, hspan, List.take_append_of_le_length hn,
        List.drop_append_of_le_length hn, ih (hlines.tail.drop n) hrest, hoffset,
        settle_append_of_ne_nil ht (hlines.ne_nil hc)]
      cases scan (offset + byteLength (c :: cs)) endLine bs with
      | error e => rfl
      | ok r => by_cases hcomment : t = .comment <;> simp [Except.map, hcomment]

end

/-! ### Texts that stand further on -/

/-- The span of the same part of a text that stands so many bytes further on, on the same line. -/
def Span.moved (bytes : Nat) (s : Span) : Span := ⟨s.start + bytes, s.stop + bytes, s.line⟩

def Located.moved {α : Type} (bytes : Nat) (t : Located α) : Located α :=
  ⟨t.node, t.span.moved bytes⟩

def LexicalError.moved (bytes : Nat) (e : LexicalError) : LexicalError :=
  ⟨e.fault, e.span.moved bytes⟩

/-- Spans move with the text. -/
theorem spanOf_add (offset bytes line : Nat) (c : Char) (cs : List Char) (n : Nat) :
    spanOf (offset + bytes) line c cs n = (spanOf offset line c cs n).moved bytes := by
  simp only [spanOf, Span.moved, Span.mk.injEq, true_and, and_true]
  omega

/-- Reading a text further on gives the same tokens, each of them moved. -/
theorem scan_moved (offset bytes line : Nat) (cs : List Char) :
    scan (offset + bytes) line cs =
      match scan offset line cs with
      | .ok (ts, last) => .ok (ts.map (Located.moved bytes), last)
      | .error e => .error (e.moved bytes) := by
  induction cs using step_induction generalizing offset line with
  | nil => simp [scan]
  | blank c cs hc ih => rw [scan_layout hc, scan_layout hc, Nat.add_right_comm, ih]
  | fault c cs hc ht =>
      rw [scan_fault hc ht, scan_fault hc ht, spanOf_add]
      rfl
  | token c cs t n hc ht ih =>
      have hstop : (spanOf (offset + bytes) line c cs n).stop =
          (spanOf offset line c cs n).stop + bytes := by
        rw [spanOf_add, Span.moved]
      rw [scan_token hc ht, scan_token hc ht, hstop, ih, spanOf_add]
      cases scan (spanOf offset line c cs n).stop (advanceLine line (newlines (c :: cs.take n)))
          (cs.drop n) with
      | error e => rfl
      | ok r => by_cases hcomment : t = .comment <;> simp [Except.map, hcomment, Located.moved]

/-- A text behind whole lines has the tokens that it has alone on the line where those end, or the
fault that it has there, so many bytes further on as they are long. -/
theorem tokenize_append {a : String} {line endLine : Nat} {ts : List (Located Token)}
    (hlines : WholeLines a.toList) (h : tokenize a line = .ok (ts, endLine)) (b : String) :
    tokenize (a ++ b) line =
      match tokenize b endLine with
      | .ok (us, last) => .ok (ts ++ us.map (Located.moved (byteLength a.toList)), last)
      | .error e => .error (e.moved (byteLength a.toList)) := by
  rw [tokenize, String.toList_append, scan_append hlines h, scan_moved, ← tokenize]
  cases tokenize b endLine <;> rfl

/-- Line feeds in a string count, here up to the last line. -/
theorem tokenize_append_unterminated :
    tokenize "\"é\n\".\n" 4294967294 =
        .ok ([⟨.string "é\n", ⟨0, 5, 4294967294⟩⟩, ⟨.terminator, ⟨5, 6, 4294967295⟩⟩], 4294967295) ∧
      tokenize ("\"é\n\".\n" ++ "x 'g") 4294967294 =
        .error ⟨.unterminated .atom, ⟨9, 11, 4294967295⟩⟩ := by
  have hlines : WholeLines "\"é\n\".\n".toList := by simp [WholeLines]
  have ha : tokenize "\"é\n\".\n" 4294967294 =
      .ok ([⟨.string "é\n", ⟨0, 5, 4294967294⟩⟩, ⟨.terminator, ⟨5, 6, 4294967295⟩⟩],
        4294967295) := by
    decide +kernel
  have hb : tokenize "x 'g" 4294967295 = .error ⟨.unterminated .atom, ⟨2, 4, 4294967295⟩⟩ := by
    decide +kernel
  refine ⟨ha, ?_⟩
  rw [tokenize_append hlines ha, hb]
  rfl

end ErlangFragment
