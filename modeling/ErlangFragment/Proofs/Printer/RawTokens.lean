import ErlangFragment.Proofs.Printer.Spacing
import ErlangFragment.Proofs.Token.Lexed

/-! The raw tokens of an attribute stand apart in its layout, if none of them takes along a dot that
is laid out tightly behind it. -/

namespace ErlangFragment

open Layout Lexeme Lexer

def Token.isNumber : Token → Bool
  | .integer _ | .float _ => true
  | _ => false

/-- The text of the float denotes the float. -/
def Binary64.ReadsBack (x : Binary64) : Prop :=
  x.isFinite = true ∧ Binary64.read? x.text.toList = some x

/-- Whether the token takes along a dot that stands tightly behind it, where `behind` is the token
behind the dot. -/
def Token.joinsDot (behind : Option Token) : Token → Bool
  | .symbol .dotDot => true
  | .integer n => n.isDecimal && behind.any Token.isNumber
  | _ => false

/-- No token takes along a dot behind it, or the one that ends the form. -/
def KeepApart : List Token → Prop
  | [] => True
  | t :: ts =>
    ((∀ u ∈ ts.head?, u = .symbol .dot) → t.joinsDot ts.tail.head? = false) ∧ KeepApart ts

/-! ### One token -/

/-- What may stand behind the text of the token. -/
structure Token.Precedes (t : Token) (rest : List Char) : Prop where
  word : EndsWord rest
  number : ∀ n, t = .integer n → n.isDecimal = true → EndsDecimal rest
  mark : ∀ s, t = .symbol s → Avoids s.extendedBy rest

section

variable {t u : Token} {c : Char} {cs rest : List Char} {n : Nat}

theorem Token.Lexed.standsBefore (h : t.Lexed) (hfloat : ∀ x, t = .float x → x.ReadsBack)
    (hend : t ≠ .terminator) (hdot : t ≠ .symbol .dot) (hrest : t.Precedes rest) :
    t.StandsBefore rest := by
  cases t with
  | keyword k => exact standsBefore_keyword k hrest.word
  | integer l => exact standsBefore_integer h.integer hrest.word (hrest.number l rfl)
  | float x => exact standsBefore_float (hfloat x rfl).1 h.float (hfloat x rfl).2 hrest.word
  | char c => exact standsBefore_char c rest
  | string s => exact standsBefore_string s rest
  | atom name => exact standsBefore_atom name hrest.word
  | var name => exact standsBefore_var h.var hrest.word
  | symbol s =>
      exact standsBefore_symbol (hrest.mark s rfl) fun hs => absurd (congrArg Token.symbol hs) hdot
  | terminator => exact absurd rfl hend
  | comment => exact absurd rfl h.ne_comment

theorem precedes_blank (t : Token) (cs : List Char) : t.Precedes (' ' :: cs) where
  word := (avoids_cons _ _ _).mpr (by decide)
  number _ _ _ := endsDecimal_blank cs
  mark s _ := (avoids_cons _ _ _).mpr (Symbol.extendedBy_blank s)

/-- What stands in front of a dot takes it along in two cases only. -/
theorem precedes_point (hdot : t ≠ .symbol .dot) (hdots : t ≠ .symbol .dotDot)
    (hdigit : ∀ l, t = .integer l → l.isDecimal = true → ∀ d ∈ cs.head?, d.isDigit = false) :
    t.Precedes ('.' :: cs) where
  word := (avoids_cons _ _ _).mpr (by decide)
  number := by
    rintro l rfl hl
    refine ⟨(avoids_cons _ _ _).mpr (by decide), ?_, fun d ds heq => by cases heq⟩
    rintro d ds heq
    obtain ⟨-, rfl⟩ := List.cons.inj heq
    exact hdigit l rfl hl d rfl
  mark := by
    rintro s rfl
    refine (avoids_cons _ _ _).mpr (Bool.eq_false_iff.mpr fun hext => ?_)
    have hs : s = .dot ∨ s = .dotDot := by
      revert hext
      cases s <;> decide
    rcases hs with rfl | rfl
    · exact hdot rfl
    · exact hdots rfl

/-- A token that does not take along a dot is told apart from it. -/
theorem precedes_dot {behind : Option Token} (hjoins : t.joinsDot behind = false)
    (hdot : t ≠ .symbol .dot) (hdigit : ∀ d ∈ cs.head?,
      d.isDigit = true → behind.any Token.isNumber = true) : t.Precedes ('.' :: cs) := by
  refine precedes_point hdot ?_ ?_
  · rintro rfl
    cases hjoins
  · rintro l rfl hl d hd
    refine Bool.eq_false_iff.mpr fun htrue => ?_
    simp [Token.joinsDot, hl, hdigit d hd htrue] at hjoins

/-- What begins with a digit is a number. -/
theorem isNumber_of_next? (hc : c.isDigit = true) (h : next? c cs = some (t, n)) :
    t.isNumber = true := by
  obtain ⟨kind, hl, htoken⟩ := next?_eq_some h
  have hnumber : number cs = (kind, n) := by
    simpa [longest?, isLower_eq_false_of_isDigit hc, isVariableStart_eq_false_of_isDigit hc,
      hc] using hl
  have hkind := number_kind cs
  rw [hnumber] at hkind
  rcases hkind with rfl | rfl | rfl
  · obtain ⟨_, -, rfl⟩ := Option.map_eq_some_iff.mp htoken
    rfl
  · obtain ⟨_, -, rfl⟩ := Option.map_eq_some_iff.mp htoken
    rfl
  · obtain rfl := Option.some.inj htoken
    rfl

theorem isDots_of_next? (h : next? '.' cs = some (t, n)) : t.isDots = true := by
  obtain ⟨s, rfl⟩ : ∃ s, t = .symbol s := by
    obtain ⟨_, hl, htoken⟩ := next?_eq_some h
    obtain ⟨s, -, heq⟩ := Option.map_eq_some_iff.mp (hl : (Symbol.longest? ('.' :: cs)).map _ = _)
    cases heq
    exact ⟨s, (Option.some.inj htoken).symm⟩
  obtain ⟨_, hl, htoken⟩ := next?_eq_some h
  obtain rfl := eq_symbol_of_token? htoken
  obtain ⟨ds, htext⟩ := head_of_longest? (longest?_symbol hl).1
  have hall : ∀ s : Symbol, s.text.toList.head? = some '.' → (Token.symbol s).isDots = true := by
    intro s
    cases s <;> decide
  exact hall s (by simp [htext])

/-- A dot stands in front of a token that does not start with one. -/
theorem dot_standsBefore (h : u.StandsBefore rest) (hu : u.isDots = false) :
    (Token.symbol .dot).StandsBefore (u.text.toList ++ rest) := by
  obtain ⟨c, cs, v, htext, -, hnext, hcomment, hsettle⟩ := h
  rw [htext, List.cons_append]
  refine standsBefore_symbol ((avoids_cons _ _ _).mpr
    (Bool.eq_false_iff.mpr fun hext => ?_)) fun _ =>
    not_endsForm_of_next? hnext hcomment
  obtain rfl : c = '.' := by simpa [Symbol.extendedBy, Symbol.all, Symbol.text] using hext
  have hv := isDots_of_next? hnext
  rw [← hsettle, settle] at hu
  split at hu
  · cases hu
  · rw [hv] at hu
    cases hu

/-- Only numbers start with a digit. -/
theorem isNumber_of_head (h : u.StandsBefore rest) {d : Char}
    (hd : d ∈ (u.text.toList ++ rest).head?) (hdigit : d.isDigit = true) : u.isNumber = true := by
  obtain ⟨c, cs, v, htext, -, hnext, -, hsettle⟩ := h
  rw [htext] at hd
  obtain rfl := Option.some.inj hd
  have hv := isNumber_of_next? hdigit hnext
  rw [settle, if_neg] at hsettle
  · rwa [← hsettle]
  · rintro hdot
    obtain rfl : v = .symbol .dot := by simpa using (Bool.and_eq_true_iff.mp hdot).1
    cases hv

end

/-! ### Raw tokens -/

namespace Printer

/-- The raw tokens of an attribute and the dot behind them. -/
def rawForm (afterDot : Bool) (ts : List Token) : Layout :=
  rawTokens afterDot ts ++ [.token .terminator]

variable {afterDot : Bool} {t : Token} {ts : List Token} {rest : List Char}

theorem rawForm_dot : rawForm afterDot (.symbol .dot :: ts) =
    .token (.symbol .dot) :: rawForm true ts := by
  simp [rawForm, rawTokens]

theorem rawForm_afterDot (ht : t ≠ .symbol .dot) :
    rawForm true (t :: ts) = .token t :: rawForm false ts := by
  simp [rawForm, rawTokens, ht]

theorem rawForm_blank (ht : t ≠ .symbol .dot) :
    rawForm false (t :: ts) = .blank :: .token t :: rawForm false ts := by
  simp [rawForm, rawTokens, ht]

theorem not_isDigit_of_endsForm (h : endsForm rest = true) :
    ∀ d ∈ rest.head?, d.isDigit = false := by
  intro d hd
  obtain ⟨cs, rfl⟩ := List.head?_eq_some_iff.mp hd
  refine Bool.eq_false_iff.mpr fun hdigit => ?_
  rw [endsForm_eq_false (by rw [isDigit_iff] at hdigit; omega)] at h
  cases h

/-- Behind a dot the first raw token starts the layout. -/
theorem rawForm_head (hchain : (.symbol .dot :: (ts ++ [.terminator])).IsChain DotsApart)
    (hs : Spaced (rawForm true ts) rest) :
    ∃ u us tail, ts = u :: us ∧ u.isDots = false ∧
    (rawForm true ts).chars ++ rest = u.text.toList ++ tail ∧
      u.StandsBefore tail := by
  obtain ⟨hhead, -⟩ := List.isChain_cons.mp hchain
  cases ts with
  | nil => exact absurd (hhead .terminator rfl rfl) (by decide)
  | cons u us =>
      have hu : u.isDots = false := hhead u rfl rfl
      have hne : u ≠ .symbol .dot := by
        rintro rfl
        cases hu
      rw [rawForm_afterDot hne] at hs ⊢
      exact ⟨u, us, _, rfl, hu, by rw [chars_cons, List.append_assoc]; rfl, hs.1⟩

/-- Every raw token is told apart from what is laid out behind it. -/
theorem precedes_rawForm (hne : t ≠ .symbol .dot)
    (hchain : (ts ++ [Token.terminator]).IsChain DotsApart)
    (hjoins : (∀ u ∈ ts.head?, u = .symbol .dot) → t.joinsDot ts.tail.head? = false)
    (hs : Spaced (rawForm false ts) rest) (hrest : endsForm rest = true) :
    t.Precedes ((rawForm false ts).chars ++ rest) := by
  cases ts with
  | nil =>
      refine precedes_dot (hjoins (by simp)) hne fun d hd hdigit => ?_
      rw [not_isDigit_of_endsForm hrest d hd] at hdigit
      cases hdigit
  | cons u us =>
      by_cases hdot : u = .symbol .dot
      · subst hdot
        have hchars : (rawForm false (.symbol .dot :: us)).chars ++ rest =
            '.' :: ((rawForm true us).chars ++ rest) := by
          rw [rawForm_dot]
          rfl
        rw [rawForm_dot] at hs
        rw [hchars]
        refine precedes_dot (hjoins (by simp)) hne fun d hd hdigit => ?_
        obtain ⟨v, vs, tail, rfl, -, htext, hv⟩ := rawForm_head hchain hs.2
        rw [htext] at hd
        exact isNumber_of_head hv hd hdigit
      · rw [rawForm_blank hdot]
        exact precedes_blank t _

/-- The tokens of a raw attribute are told apart, if no token takes along the dot behind it. -/
theorem spaced_rawForm (hlexed : ∀ t ∈ ts, t.Lexed ∧ t ≠ .terminator)
    (hfloat : ∀ x, .float x ∈ ts → Binary64.ReadsBack x)
    (hchain : (ts ++ [Token.terminator]).IsChain DotsApart) (hapart : KeepApart ts)
    (hrest : endsForm rest = true) :
    Spaced (rawForm afterDot ts) rest := by
  induction ts generalizing afterDot with
  | nil => exact ⟨standsBefore_terminator hrest, True.intro⟩
  | cons t ts ih =>
      obtain ⟨⟨ht, hend⟩, hts⟩ := List.forall_mem_cons.mp hlexed
      have htail : ∀ b, Spaced (rawForm b ts) rest := fun _ =>
        ih hts (fun x hx => hfloat x (List.mem_cons_of_mem t hx))
          (List.isChain_cons.mp hchain).2 hapart.2
      by_cases hdot : t = .symbol .dot
      · subst hdot
        obtain ⟨u, us, tail, rfl, hu, htext, hstands⟩ := rawForm_head hchain (htail true)
        rw [rawForm_dot, spaced_token, htext]
        exact ⟨dot_standsBefore hstands hu, htail true⟩
      · have hstands : t.StandsBefore ((rawForm false ts).chars ++ rest) :=
          ht.standsBefore (fun x hx => hfloat x (hx ▸ List.mem_cons_self)) hend hdot
            (precedes_rawForm hdot (List.isChain_cons.mp hchain).2 hapart.1 (htail false) hrest)
        cases afterDot with
        | true =>
            rw [rawForm_afterDot hdot]
            exact ⟨hstands, htail false⟩
        | false =>
            rw [rawForm_blank hdot]
            exact ⟨hstands, htail false⟩

end Printer

end ErlangFragment
