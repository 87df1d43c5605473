import ErlangFragment.Proofs.Token.Quoted
import ErlangFragment.Proofs.Token.Symbol
import ErlangFragment.Token.Lexer

/-! Reading back what tokens are written as. A token that stands in front of a text is the longest
lexeme there if the text cannot be taken for more of it. -/

namespace ErlangFragment

open Lexeme Lexer

/-- The token is read from its own text in front of `rest`. -/
def Token.StandsBefore (t : Token) (rest : List Char) : Prop :=
  ∃ c cs u, t.text.toList = c :: cs ∧ isLayout c = false ∧
    next? c (cs ++ rest) = some (u, cs.length) ∧
    u ≠ .comment ∧ settle u rest = t

theorem Token.StandsBefore.of_next {t : Token} {rest : List Char} (c : Char) (cs : List Char)
    (htext : t.text.toList = c :: cs) (hlayout : isLayout c = false)
    (hnext : next? c (cs ++ rest) = some (t, cs.length)) (hcomment : t ≠ .comment)
    (hdot : t ≠ .symbol .dot) : t.StandsBefore rest :=
  ⟨c, cs, t, htext, hlayout, hnext, hcomment, by simp [settle, hdot]⟩

theorem next?_of_longest? (kind : LexemeKind) {t : Token} {c : Char} {cs rest : List Char}
    (hlongest : longest? c (cs ++ rest) = some (kind, cs.length))
    (htoken : token? kind (c :: cs) = some t) : next? c (cs ++ rest) = some (t, cs.length) := by
  simp [next?, hlongest, htoken]

/-! ### First characters -/

theorem isLayout_eq_false {p : Char → Bool} {c : Char} (hc : p c = true)
    (h : ([' ', '\t', '\n', '\x0c', '\r'].any p) = false) : isLayout c = false := by
  refine Bool.eq_false_iff.mpr fun hl => ?_
  have hmem : c ∈ [' ', '\t', '\n', '\x0c', '\r'] := by
    simpa [isLayout, or_assoc] using hl
  exact List.any_eq_false.mp h c hmem hc

theorem isUpper_iff {c : Char} : c.isUpper = true ↔ 65 ≤ c.toNat ∧ c.toNat ≤ 90 := by
  have hrange : c.isUpper = decide (65 ≤ c.val ∧ c.val ≤ 90) := rfl
  simp [hrange, UInt32.le_iff_toNat_le]

theorem isLower_iff {c : Char} : c.isLower = true ↔ 97 ≤ c.toNat ∧ c.toNat ≤ 122 := by
  have hrange : c.isLower = (decide (97 ≤ c.val) && decide (c.val ≤ 122)) := rfl
  simp [hrange, UInt32.le_iff_toNat_le]

theorem isDigit_iff {c : Char} : c.isDigit = true ↔ 48 ≤ c.toNat ∧ c.toNat ≤ 57 := by
  simp [Char.isDigit, UInt32.le_iff_toNat_le]

/-- A dot in front of a name, a number or a quoted atom does not end a form. -/
theorem endsForm_eq_false {c : Char} (h : 37 < c.toNat ∧ c.toNat < 127) (cs : List Char) :
    endsForm (c :: cs) = false := by
  have hblank : isWhiteSpace c = false := by
    simp [isWhiteSpace, whiteSpaceRanges]
    omega
  have hpercent : c ≠ '%' := by
    rintro rfl
    exact absurd h.1 (by decide)
  simp [endsForm, hblank, hpercent]

theorem isLower_eq_false_of_isVariableStart {c : Char} (h : isVariableStart c = true) :
    c.isLower = false := by
  refine Bool.eq_false_iff.mpr fun hl => ?_
  rw [isLower_iff] at hl
  rcases (by simpa [isVariableStart] using h : c.isUpper = true ∨ c = '_') with hu | rfl
  · rw [isUpper_iff] at hu
    omega
  · revert hl
    decide

theorem isLower_eq_false_of_isDigit {c : Char} (h : c.isDigit = true) : c.isLower = false := by
  refine Bool.eq_false_iff.mpr fun hl => ?_
  rw [isLower_iff] at hl
  rw [isDigit_iff] at h
  omega

theorem isVariableStart_eq_false_of_isDigit {c : Char} (h : c.isDigit = true) :
    isVariableStart c = false := by
  refine Bool.eq_false_iff.mpr fun hv => ?_
  rw [isDigit_iff] at h
  rcases (by simpa [isVariableStart] using hv : c.isUpper = true ∨ c = '_') with hu | rfl
  · rw [isUpper_iff] at hu
    omega
  · revert h
    decide

/-! ### Words and variables -/

/-- Lower case letters, digits and the like, behind a lower case letter. -/
def IsWord (cs : List Char) : Prop :=
  ∃ c ds, cs = c :: ds ∧ c.isLower = true ∧ ∀ d ∈ ds, isNameChar d = true

theorem longest?_word {c : Char} {cs rest : List Char} (hc : c.isLower = true)
    (hcs : ∀ d ∈ cs, isNameChar d = true) (hr : Avoids isNameChar rest) :
    longest? c (cs ++ rest) = some (.word, cs.length) := by
  simp [longest?, hc, takeWhile_append_of_avoids hcs hr]

/-- A word stands before anything that does not go on with it. -/
theorem standsBefore_of_isWord {t : Token} {rest : List Char} (hword : IsWord t.text.toList)
    (htoken : wordToken t.text.toList = t) (hcomment : t ≠ .comment) (hdot : t ≠ .symbol .dot)
    (hr : Avoids isNameChar rest) : t.StandsBefore rest := by
  obtain ⟨c, cs, htext, hc, hcs⟩ := hword
  refine .of_next _ _ htext (isLayout_eq_false hc (by decide)) ?_ hcomment hdot
  refine next?_of_longest? .word (longest?_word hc hcs hr) ?_
  rw [token?, ← htext, htoken]

theorem keyword_isWord (k : Keyword) : IsWord k.text.toList := by
  cases k <;> exact ⟨_, _, rfl, by decide, List.all_eq_true.mp (by decide)⟩

theorem ofText?_text : ∀ k : Keyword, Keyword.ofText? k.text = some k := by
  intro k
  cases k <;> decide

theorem standsBefore_keyword (k : Keyword) {rest : List Char} (hr : Avoids isNameChar rest) :
    (Token.keyword k).StandsBefore rest := by
  refine standsBefore_of_isWord (keyword_isWord k) ?_ (by simp) (by simp) hr
  simp [wordToken, Token.text, ofText?_text]

theorem isWord_of_isPlainAtom {name : String} (h : isPlainAtom name = true) :
    IsWord name.toList := by
  unfold isPlainAtom at h
  split at h
  · cases h
  · next c cs hname =>
    simp only [Bool.and_eq_true, List.all_eq_true] at h
    exact ⟨c, cs, hname, h.1.1, h.1.2⟩

theorem ofText?_of_isPlainAtom {name : String} (h : isPlainAtom name = true) :
    Keyword.ofText? name = none := by
  unfold isPlainAtom at h
  split at h
  · cases h
  · simpa [isKeyword] using (Bool.and_eq_true_iff.mp h).2

theorem standsBefore_quoted {quote : Char} (hq : Quoted.IsQuote quote) (kind : LexemeKind)
    (text : List Char) {t : Token} {rest : List Char}
    (htext : t.text.toList = quote :: (Quoted.encode (some quote) text ++ [quote]))
    (hlongest : ∀ cs, longest? quote cs = (quotedLength? quote cs).map (kind, ·))
    (htoken : ∀ cs, Quoted.decode? (body cs) = some text → token? kind cs = some t)
    (hcomment : t ≠ .comment) (hdot : t ≠ .symbol .dot) : t.StandsBefore rest := by
  refine .of_next _ _ htext ?_ ?_ hcomment hdot
  · rcases hq with rfl | rfl <;> decide
  refine next?_of_longest? kind ?_ (htoken _ ?_)
  · rw [hlongest, List.append_assoc, List.singleton_append, quotedLength?_encode hq]
    simp
  · rw [body, List.drop_one, List.tail_cons, List.dropLast_concat]
    exact Quoted.decode?_encode (by simpa using hq) text

/-- An atom is read again, as a word or between quotes. -/
theorem standsBefore_atom (name : String) {rest : List Char} (hr : Avoids isNameChar rest) :
    (Token.atom name).StandsBefore rest := by
  by_cases hplain : isPlainAtom name = true
  · have htext : (Token.atom name).text = name := by simp [Token.text, atomText, hplain]
    refine standsBefore_of_isWord ?_ ?_ (by simp) (by simp) hr
    · rw [htext]
      exact isWord_of_isPlainAtom hplain
    · simp [htext, wordToken, ofText?_of_isPlainAtom hplain]
  · refine standsBefore_quoted (.inr rfl) .quotedAtom name.toList ?_ ?_ ?_ (by simp) (by simp)
    · simp [Token.text, atomText, hplain, Quoted.enclose]
    · intro cs
      rfl
    · intro cs h
      simp [token?, h]

/-- A closing quote ends a string whatever follows. -/
theorem standsBefore_string (s : String) (rest : List Char) :
    (Token.string s).StandsBefore rest := by
  refine standsBefore_quoted (.inl rfl) .string s.toList ?_ ?_ ?_ (by simp) (by simp)
  · simp [Token.text, stringText, Quoted.enclose]
  · intro cs
    rfl
  · intro cs h
    simp [token?, h]

/-- The names that variables have in source text. -/
def IsVariableName (name : String) : Prop :=
  ∃ c cs, name.toList = c :: cs ∧ isVariableStart c = true ∧ ∀ d ∈ cs, isNameChar d = true

theorem standsBefore_var {name : String} (hname : IsVariableName name) {rest : List Char}
    (hr : Avoids isNameChar rest) : (Token.var name).StandsBefore rest := by
  obtain ⟨c, cs, htext, hc, hcs⟩ := hname
  refine .of_next _ _ htext (isLayout_eq_false hc (by decide)) ?_ (by simp) (by simp)
  refine next?_of_longest? .var ?_ ?_
  · simp [longest?, isLower_eq_false_of_isVariableStart hc, hc, takeWhile_append_of_avoids hcs hr]
  · simp [token?, ← htext]

/-! ### Characters -/

theorem characterLength?_encodeChar (c : Char) (rest : List Char) :
    characterLength? (Quoted.encodeChar none c ++ rest) =
      some (Quoted.encodeChar none c).length := by
  unfold Quoted.encodeChar
  split
  · rfl
  split
  · rfl
  split
  · rfl
  split
  · rfl
  split
  · have hrun : (Radix.upperHex c.toNat ++ '}' :: rest).takeWhile (Radix.isDigit 16) =
        Radix.upperHex c.toNat :=
      takeWhile_append_of_avoids (fun d hd => Radix.isDigit_of_mem_upperHex hd)
        ((avoids_cons _ _ _).mpr (by decide))
    have hoctal : Radix.isDigit 8 'x' = false := by decide
    simp [Quoted.hexEscape, characterLength?, hoctal, hrun, Radix.upperHex_ne_nil]
  split
  · next h => cases h
  · next hne _ _ _ _ _ => simp [characterLength?, hne]

theorem standsBefore_character {c : Char} {cs rest : List Char}
    (htext : charText c = String.ofList ('$' :: cs))
    (hlength : characterLength? (cs ++ rest) = some cs.length)
    (hdecode : Quoted.decode? cs = some [c]) :
    (Token.char c).StandsBefore rest := by
  refine .of_next '$' cs (by simp [Token.text, htext]) (by decide) ?_ (by simp) (by simp)
  refine next?_of_longest? .character ?_ (by simp [token?, characterToken?, hdecode])
  have hkind : longest? '$' (cs ++ rest) =
      (characterLength? (cs ++ rest)).map (LexemeKind.character, ·) :=
    rfl
  rw [hkind, hlength, Option.map_some]

/-- A character literal is read again whatever follows. -/
theorem standsBefore_char (c : Char) (rest : List Char) : (Token.char c).StandsBefore rest := by
  by_cases hspace : c = ' '
  · subst hspace
    have hdecode : Quoted.decode? ['\\', 's'] = some [' '] := by
      rw [Quoted.decode?_escape (show Quoted.escape? 's' [] = some (' ', 0) from rfl)]
      simp [Quoted.decode?]
    exact standsBefore_character rfl rfl hdecode
  · have hdecode :=
      Quoted.decode?_encode (by simp : ∀ q ∈ (none : Option Char), Quoted.IsQuote q) [c]
    simp only [Quoted.encode, List.flatMap_cons, List.flatMap_nil, List.append_nil] at hdecode
    exact standsBefore_character (by simp [charText, hspace])
      (characterLength?_encodeChar c rest) hdecode

/-! ### Symbols -/

theorem symbol_text (s : Symbol) : ∃ c cs, s.text.toList = c :: cs ∧ isLayout c = false ∧
    ∀ ds, longest? c ds = (Symbol.longest? (c :: ds)).map fun s =>
      (.symbol s, s.text.length - 1) := by
  cases s <;> exact ⟨_, _, rfl, by decide, fun ds => rfl⟩

theorem next?_symbol {s : Symbol} {c : Char} {cs rest : List Char} (htext : s.text.toList = c :: cs)
    (hlongest : ∀ ds,
      longest? c ds = (Symbol.longest? (c :: ds)).map fun s => (.symbol s, s.text.length - 1))
    (hr : Avoids s.extendedBy rest) : next? c (cs ++ rest) = some (.symbol s, cs.length) := by
  refine next?_of_longest? (.symbol s) ?_ rfl
  have h := Symbol.longest?_append hr
  rw [htext, List.cons_append] at h
  rw [hlongest, h, Option.map_some, ← String.length_toList, htext]
  rfl

/-- A symbol is read again unless what follows makes it a longer one, or a terminator of a dot. -/
theorem standsBefore_symbol {s : Symbol} {rest : List Char} (hr : Avoids s.extendedBy rest)
    (hdot : s = .dot → endsForm rest = false) : (Token.symbol s).StandsBefore rest := by
  obtain ⟨c, cs, htext, hlayout, hlongest⟩ := symbol_text s
  refine ⟨c, cs, .symbol s, htext, hlayout, next?_symbol htext hlongest hr, by simp, ?_⟩
  by_cases h : s = .dot
  · simp [settle, hdot h]
  · simp [settle, h]

theorem standsBefore_terminator {rest : List Char} (hr : endsForm rest = true) :
    Token.terminator.StandsBefore rest := by
  obtain ⟨c, cs, htext, hlayout, hlongest⟩ := symbol_text .dot
  have hext : Avoids Symbol.dot.extendedBy rest := by
    cases rest with
    | nil => simp
    | cons d rest =>
        refine (avoids_cons _ _ _).mpr (Bool.eq_false_iff.mpr fun hd => ?_)
        obtain rfl : d = '.' := by simpa [Symbol.extendedBy, Symbol.all, Symbol.text] using hd
        simp [endsForm, isWhiteSpace, whiteSpaceRanges] at hr
  exact ⟨c, cs, .symbol .dot, htext, hlayout, next?_symbol htext hlongest hext, by simp,
    by simp [settle, hr]⟩

/-! ### Texts of one token -/

/-- The span of a text from its first line on. -/
def wholeSpan (text : String) : Span := ⟨0, byteLength text.toList, 1⟩

/-- A token that stands before the end of the text is all there is in its own text. -/
theorem Token.StandsBefore.lex {t : Token} (h : t.StandsBefore []) :
    lex t.text = .ok [⟨t, wholeSpan t.text⟩] := by
  obtain ⟨c, cs, u, htext, hlayout, hnext, hcomment, hsettle⟩ := h
  rw [List.append_nil] at hnext
  have hend (offset line : Nat) : scan offset line [] = .ok ([], line) := by rw [scan]
  have hscan : scan 0 1 (c :: cs) =
      .ok ([⟨t, wholeSpan t.text⟩], advanceLine 1 (newlines (c :: cs))) := by
    rw [scan]
    simp [hlayout, hnext, hend, hcomment, hsettle, spanOf, wholeSpan, htext]
  rw [ErlangFragment.lex, tokenize, htext, hscan]
  rfl

/-- Whatever characters a string, an atom or a character literal has: its text is read as it, and as
nothing else. -/
theorem lex_quoted :
    (∀ s : String, lex (stringText s) = .ok [⟨.string s, wholeSpan (stringText s)⟩]) ∧
    (∀ name : String, lex (atomText name) = .ok [⟨.atom name, wholeSpan (atomText name)⟩]) ∧
    (∀ c : Char, lex (charText c) = .ok [⟨.char c, wholeSpan (charText c)⟩]) := by
  refine ⟨fun s => ?_, fun name => ?_, fun c => ?_⟩
  · exact (standsBefore_string s []).lex
  · exact (standsBefore_atom name (avoids_nil _)).lex
  · exact (standsBefore_char c []).lex

end ErlangFragment
