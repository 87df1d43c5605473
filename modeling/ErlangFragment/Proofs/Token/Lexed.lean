import Mathlib.Data.List.Chain
import ErlangFragment.Proofs.Token.Scan
import ErlangFragment.Proofs.Token.Number

/-! The tokens of source text. Their numbers and names are written as tokens of their own, and
behind a dot there is always a token that neither starts with a dot nor stands apart from it. -/

namespace ErlangFragment

open Lexeme Lexer

/-- The token is read at some place of some text, or it ends a form. -/
def Token.Lexed (t : Token) : Prop :=
  t = .terminator ∨ ∃ c cs n, next? c cs = some (t, n) ∧ t ≠ .comment

/-! ### First characters -/

section

variable {c : Char} {cs : List Char} {n : Nat}

theorem head_of_longest? {s : Symbol} (h : Symbol.longest? (c :: cs) = some s) :
    ∃ ds, s.text.toList = c :: ds := by
  obtain ⟨hmem, -⟩ := Symbol.longest?_le h
  obtain ⟨d, ds, htext, -⟩ := symbol_text s
  have hprefix := Symbol.mem_matching.mp hmem
  rw [htext, List.cons_prefix_cons] at hprefix
  exact ⟨ds, hprefix.1 ▸ htext⟩

/-- A dot in front of a token that is no comment does not end a form. -/
theorem not_endsForm_of_next? {t : Token} (h : next? c cs = some (t, n)) (hcomment : t ≠ .comment) :
    endsForm (c :: cs) = false := by
  obtain ⟨kind, hl, htoken⟩ := next?_eq_some h
  cases longest?_heads hl with
  | word _ hc => exact endsForm_eq_false (by rw [isLower_iff] at hc; omega) cs
  | var hc =>
      have hc' : c.isUpper = true ∨ c = '_' := by simpa [isVariableStart] using hc
      rcases hc' with hc' | rfl
      · exact endsForm_eq_false (by rw [isUpper_iff] at hc'; omega) cs
      · rfl
  | number hc _ => exact endsForm_eq_false (by rw [isDigit_iff] at hc; omega) cs
  | character _ hc | string _ hc | quotedAtom _ hc =>
      subst hc
      rfl
  | comment _ => exact absurd (Option.some.inj htoken).symm hcomment
  | @symbol s hs =>
      obtain ⟨ds, htext⟩ := head_of_longest? hs
      have hall : ∀ s : Symbol, s.text.toList.head?.any (endsForm [·]) = false := by
        intro s
        cases s <;> rfl
      simpa [htext, endsForm] using hall s

/-! ### Numbers and names -/

theorem mem_take_digitsLength {p : Char → Bool} :
    ∀ d ∈ cs.take (Radix.digitsLength p cs), p d = true ∨ d = '_' := by
  induction cs with
  | nil => simp
  | cons c cs ih =>
      rw [Radix.digitsLength]
      split
      · next hc => exact List.forall_mem_cons.mpr ⟨.inl hc, ih⟩
      split
      · next hc =>
          exact List.forall_mem_cons.mpr
            ⟨.inr (by simpa using (Bool.and_eq_true_iff.mp hc).1), ih⟩
      · exact List.forall_mem_nil _

theorem decimalOrFloat_decimal {whole : Nat} (h : decimalOrFloat whole cs = (.decimal, n)) :
    n = whole ∨ n = whole + 1 ∧ ∃ ds, cs = '_' :: ds := by
  unfold decimalOrFloat at h
  repeat' split at h
  all_goals simp_all

theorem mem_take_decimal (h : number cs = (.decimal, n)) :
    ∀ d ∈ cs.take n, d.isDigit = true ∨ d = '_' := by
  rw [number_eq] at h
  split at h
  · cases h
  · rcases decimalOrFloat_decimal h with rfl | ⟨rfl, ds, hdrop⟩
    · exact mem_take_digitsLength
    · rw [List.take_add, hdrop]
      refine fun d hd => (List.mem_append.mp hd).elim (mem_take_digitsLength d) fun hd => .inr ?_
      simpa using hd

theorem written_of_ofBased? {base digits : List Char} {l : IntegerLiteral}
    (h : IntegerLiteral.ofBased? base digits = some l) : l.Written := by
  by_cases hne : digits = []
  · subst hne
    obtain rfl : IntegerLiteral.ofDecimal [] = l := by
      unfold IntegerLiteral.ofBased? at h
      simp only at h
      split at h
      · exact Option.some.inj h
      · cases h
    exact .decimal (List.forall_mem_nil _)
  · exact .based hne h

/-- The kind of lexeme that a number or a variable is denoted by. -/
theorem kind_of_token? {t : Token} {lexeme : List Char} (h : token? kind lexeme = some t) :
    match t with
    | .integer _ => kind = .decimal ∨ kind = .based
    | .float _ => kind = .float
    | .var _ => kind = .var
    | _ => True := by
  cases kind <;> simp only [token?, wordToken, characterToken?, basedToken?, Option.map_eq_some_iff,
    Option.some.injEq] at h
  all_goals grind

theorem IntegerLiteral.Written.bounds {l : IntegerLiteral} {n : Int} (h : l.Written)
    (hl : l = .small n) :
    0 ≤ n ∧ n < IntegerLiteral.smallLimit := by
  cases h with
  | decimal =>
      unfold IntegerLiteral.ofDecimal at hl
      simp only at hl
      split at hl
      · next hsmall =>
        obtain rfl := IntegerLiteral.small.inj hl
        omega
      · cases hl
  | based _ h =>
      unfold IntegerLiteral.ofBased? at h
      simp only [Option.ite_none_right_eq_some] at h
      obtain ⟨-, h⟩ := h
      subst hl
      split at h
      · next hsmall =>
        obtain rfl := IntegerLiteral.small.inj (Option.some.inj h)
        omega
      · cases h

/-- An integer that was read can be written and read again. -/
theorem written_of_next? {l : IntegerLiteral} (h : next? c cs = some (.integer l, n)) :
    l.Written := by
  obtain ⟨kind, hl, htoken⟩ := next?_eq_some h
  rcases kind_of_token? htoken with rfl | rfl
  · cases longest?_heads hl with
    | number hc hnumber =>
      obtain rfl : IntegerLiteral.ofDecimal (withoutUnderscores (c :: cs.take n)) = l := by
        simpa [token?] using htoken
      refine .decimal fun d hd => ?_
      obtain ⟨hd, hne⟩ := List.mem_filter.mp hd
      rcases List.mem_cons.mp hd with rfl | hd
      · exact hc
      · exact (mem_take_decimal hnumber d hd).resolve_right (by simpa using hne)
  · obtain ⟨_, hbased, heq⟩ := Option.map_eq_some_iff.mp htoken
    cases heq
    exact written_of_ofBased? hbased

theorem negative_ofDecimal (negative : Bool) (digits : Nat) (exponent : Int) :
    (Binary64.ofDecimal negative digits exponent).negative = negative := by
  unfold Binary64.ofDecimal
  simp only [Binary64.ofRatio, Binary64.assemble]
  repeat' split
  all_goals rfl

theorem negative_of_readMagnitude? {negative : Bool} {x : Binary64}
    (h : Binary64.readMagnitude? negative cs = some x) : x.negative = negative := by
  unfold Binary64.readMagnitude? at h
  simp only at h
  split at h
  all_goals
    simp only [Option.ite_none_left_eq_some, Option.map_eq_some_iff] at h
    obtain ⟨-, _, -, rfl⟩ := h
    exact negative_ofDecimal _ _ _

/-- What starts with a digit has no sign. -/
theorem negative_of_read? {x : Binary64} (hc : c.isDigit = true)
    (h : Binary64.read? (c :: cs) = some x) :
    x.negative = false := by
  have hsign : Binary64.splitSign (c :: cs) = (false, c :: cs) := by
    unfold Binary64.splitSign
    split
    · next heq =>
      obtain ⟨rfl, -⟩ := List.cons.inj heq
      cases hc
    · next heq =>
      obtain ⟨rfl, -⟩ := List.cons.inj heq
      cases hc
    · rfl
  rw [Binary64.read?, hsign] at h
  simp only at h
  split at h
  · obtain rfl := Option.some.inj h
    rfl
  split at h
  · obtain rfl := Option.some.inj h
    rfl
  · exact negative_of_readMagnitude? h

/-- A float that was read has no sign, for the lexer takes none. -/
theorem negative_of_next? {x : Binary64} (h : next? c cs = some (.float x, n)) :
    x.negative = false := by
  obtain ⟨kind, hl, htoken⟩ := next?_eq_some h
  obtain rfl : kind = .float := kind_of_token? htoken
  cases longest?_heads hl with
  | number hc _ =>
    obtain ⟨_, hread, heq⟩ := Option.map_eq_some_iff.mp htoken
    cases heq
    rw [withoutUnderscores, List.filter_cons_of_pos
      (by simpa using ne_underscore_of_isDigit hc)] at hread
    exact negative_of_read? hc hread

theorem isVariableName_of_next? {name : String} (h : next? c cs = some (.var name, n)) :
    IsVariableName name := by
  obtain ⟨kind, hl, htoken⟩ := next?_eq_some h
  obtain rfl : kind = .var := kind_of_token? htoken
  cases longest?_heads hl with
  | var hc =>
    obtain rfl : String.ofList (c :: cs.take (cs.takeWhile isNameChar).length) = name := by
      simpa [token?] using htoken
    refine ⟨c, _, String.toList_ofList, hc, fun d hd => ?_⟩
    rw [← List.prefix_iff_eq_take.mp (List.takeWhile_prefix _)] at hd
    exact List.mem_takeWhile_imp hd
  | number hc hnumber =>
    have hkind := number_kind cs
    simp [hnumber] at hkind

end

namespace Token.Lexed

theorem integer {l : IntegerLiteral} (h : (Token.integer l).Lexed) : l.Written := by
  obtain ⟨_, _, _, h, -⟩ := h.resolve_left (by simp)
  exact written_of_next? h

theorem float {x : Binary64} (h : (Token.float x).Lexed) : x.negative = false := by
  obtain ⟨_, _, _, h, -⟩ := h.resolve_left (by simp)
  exact negative_of_next? h

theorem var {name : String} (h : (Token.var name).Lexed) : IsVariableName name := by
  obtain ⟨_, _, _, h, -⟩ := h.resolve_left (by simp)
  exact isVariableName_of_next? h

theorem underscore : (Token.var "_").Lexed := .inr ⟨'_', [], 0, rfl, by simp⟩

theorem ne_comment {t : Token} (h : t.Lexed) : t ≠ .comment := by
  rcases h with rfl | ⟨_, _, _, -, h⟩
  · simp
  · exact h

end Token.Lexed

/-- Telling a dot from a terminator leaves other tokens as they were read. -/
theorem lexed_settle {c : Char} {cs : List Char} {t : Token} {n : Nat}
    (h : next? c cs = some (t, n)) (hcomment : t ≠ .comment) (rest : List Char) :
    (settle t rest).Lexed := by
  unfold settle
  split
  · exact .inl rfl
  · exact .inr ⟨c, cs, n, h, hcomment⟩

/-- All tokens of a text were read from it. -/
theorem Lexer.Scans.lexed {offset : Nat} {cs : List Char} {ts : List (Located Token)}
    (h : Scans offset cs ts) : ∀ t ∈ ts, t.node.Lexed := by
  induction h with
  | nil => exact List.forall_mem_nil _
  | blank _ _ ih | comment _ _ _ ih => exact ih
  | token _ hnext hcomment _ _ _ ih =>
      exact List.forall_mem_cons.mpr ⟨lexed_settle hnext hcomment _, ih⟩

/-! ### Dots -/

/-- Tokens whose text is made of dots. -/
def Token.isDots : Token → Bool
  | .symbol .dot | .symbol .dotDot | .symbol .dotDotDot | .terminator => true
  | _ => false

section

variable {c : Char} {cs : List Char} {n : Nat}

/-- Nothing goes on with a dot behind a dot that is read as such. -/
theorem avoids_of_next?_dot (h : next? c cs = some (.symbol .dot, n)) : Avoids (· = '.') cs := by
  obtain ⟨kind, hl, htoken⟩ := next?_eq_some h
  obtain rfl := eq_symbol_of_token? htoken
  obtain ⟨hmem, hle⟩ := Symbol.longest?_le (longest?_symbol hl).1
  intro d hd
  refine decide_eq_false ?_
  rintro rfl
  obtain ⟨ds, rfl⟩ : ∃ ds, cs = '.' :: ds := by
    cases cs with
    | nil => cases hd
    | cons e ds =>
      obtain rfl := Option.some.inj hd
      exact ⟨ds, rfl⟩
  have hdot : c = '.' := by
    obtain ⟨_, h⟩ := Symbol.mem_matching.mp hmem
    exact (List.cons.inj h).1.symm
  subst hdot
  have hmore : Symbol.dotDot ∈ Symbol.matching ('.' :: '.' :: ds) :=
    Symbol.mem_matching.mpr ⟨ds, rfl⟩
  exact absurd (hle _ hmore) (by decide)

theorem head_of_isDots {t : Token} (h : next? c cs = some (t, n)) (ht : t.isDots = true) :
    c = '.' := by
  obtain ⟨kind, hl, htoken⟩ := next?_eq_some h
  have hsymbol : ∃ s, t = .symbol s ∧ s.text.toList.head? = some '.' := by
    unfold Token.isDots at ht
    split at ht
    · exact ⟨_, rfl, rfl⟩
    · exact ⟨_, rfl, rfl⟩
    · exact ⟨_, rfl, rfl⟩
    · exact absurd htoken (token?_ne_terminator _ _)
    · cases ht
  obtain ⟨s, rfl, hs⟩ := hsymbol
  obtain rfl := eq_symbol_of_token? htoken
  obtain ⟨ds, htext⟩ := head_of_longest? (longest?_symbol hl).1
  simpa [htext] using hs

end

theorem isDots_settle {t : Token} {rest : List Char} (h : t.isDots = false) :
    (settle t rest).isDots = false := by
  unfold settle
  split
  · next hdot =>
    obtain rfl : t = .symbol .dot := by simpa using (Bool.and_eq_true_iff.mp hdot).1
    cases h
  · exact h

/-- Behind a dot there is no token that starts with one. -/
def DotsApart (t u : Token) : Prop := t = .symbol .dot → u.isDots = false

theorem Lexer.Scans.dots {offset : Nat} {cs : List Char} {ts : List (Located Token)}
    (h : Scans offset cs ts) : ts.IsChain fun t u => DotsApart t.node u.node := by
  induction h with
  | nil => exact .nil
  | blank _ _ ih | comment _ _ _ ih => exact ih
  | @token offset c cs rest ts t s hc hnext hcomment hstart hstop h ih =>
      refine List.isChain_cons.mpr ⟨fun u hu hdot => ?_, ih⟩
      obtain ⟨rfl, hends⟩ : t = .symbol .dot ∧ endsForm rest = false := by
        unfold settle at hdot
        split at hdot
        · cases hdot
        · next hne =>
          subst hdot
          exact ⟨rfl, by simpa using hne⟩
      obtain rfl : cs = [] := List.length_eq_zero_iff.mp (next?_dot hnext)
      have havoids := avoids_of_next?_dot hnext
      cases h with
      | nil => cases hu
      | blank hd _ => simp [endsForm, isWhiteSpace_of_isLayout hd] at hends
      | comment => simp [endsForm] at hends
      | token _ hnext' _ _ _ _ =>
        obtain rfl := Option.some.inj hu
        refine isDots_settle (Bool.eq_false_iff.mpr fun hdots => ?_)
        obtain rfl := head_of_isDots hnext' hdots
        simp at havoids

end ErlangFragment
