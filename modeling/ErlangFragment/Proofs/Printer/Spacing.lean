import ErlangFragment.Proofs.Layout
import ErlangFragment.Proofs.Printer.Laws
import ErlangFragment.Proofs.Token.Number

/-! Layouts whose tokens are told apart in front of any text of some class. Most layouts stand in
front of any text that ends a number, and many of them end a number themselves. -/

namespace ErlangFragment

open Lexeme

/-! ### Texts that end a number -/

/-- A number ends in front of a character that no name, fraction or base goes on with. -/
theorem endsDecimal_cons {c : Char} {cs : List Char} (hname : isNameChar c = false) (hdot : c ≠ '.')
    (hhash : c ≠ '#') : EndsDecimal (c :: cs) :=
  ⟨(avoids_cons _ _ _).mpr hname, by simp [hdot], by simp [hhash]⟩

theorem endsDecimal_blank (cs : List Char) : EndsDecimal (' ' :: cs) :=
  endsDecimal_cons (by decide) (by decide) (by decide)

theorem endsDecimal_newline (cs : List Char) : EndsDecimal ('\n' :: cs) :=
  endsDecimal_cons (by decide) (by decide) (by decide)

namespace Symbol

/-- No longer symbol starts with this one. -/
def Lone (s : Symbol) : Prop := s ≠ .dot ∧ ∀ c, s.extendedBy c = false

/-- Brackets and separators are never the beginning of another symbol. -/
theorem lone_of_mem {s : Symbol}
    (h : s ∈ [.leftParen, .rightParen, .leftBrace, .rightBrace, .leftBracket, .rightBracket,
      .lessLess, .greaterGreater, .comma, .semicolon, .hash, .question, .arrow]) :
    s.Lone := by
  simp only [List.mem_cons, List.not_mem_nil, or_false] at h
  rcases h with rfl | rfl | rfl | rfl | rfl | rfl | rfl | rfl | rfl | rfl | rfl | rfl | rfl
  all_goals exact ⟨by decide, fun c => rfl⟩

theorem Lone.standsBefore {s : Symbol} (h : s.Lone) (rest : List Char) :
    (Token.symbol s).StandsBefore rest :=
  standsBefore_symbol (by cases rest with
    | nil => exact avoids_nil _
    | cons c rest => exact (avoids_cons _ _ _).mpr (h.2 c)) fun hdot => absurd hdot h.1

theorem extendedBy_blank (s : Symbol) : s.extendedBy ' ' = false := by cases s <;> rfl

theorem standsBefore_blank {s : Symbol} (hs : s ≠ .dot) (rest : List Char) :
    (Token.symbol s).StandsBefore (' ' :: rest) :=
  standsBefore_symbol ((avoids_cons _ _ _).mpr (extendedBy_blank s)) fun hdot => absurd hdot hs

/-- The text of the symbol ends a number in front of it. -/
theorem endsDecimal_text {s : Symbol} (hs : s ∉ [.hash, .dot, .dotDot, .dotDotDot])
    (rest : List Char) :
    EndsDecimal (s.text.toList ++ rest) := by
  obtain ⟨c, cs, htext, hname, hc⟩ : ∃ c cs, s.text.toList = c :: cs ∧ isNameChar c = false ∧
      (c ≠ '.' ∧ c ≠ '#') := by
    cases s <;> first | exact ⟨_, _, rfl, by decide, by decide⟩ | exact absurd hs (by decide)
  rw [htext]
  exact endsDecimal_cons hname hc.1 hc.2

end Symbol

namespace Layout

/-- The layout may stand in front of every text of the class. -/
def Stands (P : List Char → Prop) (l : Layout) : Prop := ∀ rest, P rest → Spaced l rest

/-- The layout may also stand behind a number. -/
structure Trails (P : List Char → Prop) (l : Layout) : Prop where
  stands : Stands P l
  ends : ∀ rest, P rest → EndsDecimal (l.chars ++ rest)

/-- Texts in front of which words end. -/
abbrev EndsWord (rest : List Char) : Prop := Avoids isNameChar rest

abbrev Anything (_ : List Char) : Prop := True

variable {P Q : List Char → Prop} {l m : Layout}

theorem Stands.mono (h : Stands P l) (hQ : ∀ rest, Q rest → P rest) : Stands Q l :=
  fun rest hrest => h rest (hQ rest hrest)

/-- Layouts one after the other, if what is behind the first begins as it asks. -/
theorem Stands.append (h : Stands EndsDecimal l) (hm : Trails P m) : Stands P (l ++ m) := by
  intro rest hrest
  rw [spaced_append]
  exact ⟨h _ (hm.ends rest hrest), hm.stands rest hrest⟩

theorem Trails.append (h : Trails EndsDecimal l) (hm : Trails P m) : Trails P (l ++ m) where
  stands := h.stands.append hm
  ends rest hrest := by
    rw [chars_append, List.append_assoc]
    exact h.ends _ (hm.ends rest hrest)

theorem Trails.mono (h : Trails P l) (hQ : ∀ rest, Q rest → P rest) : Trails Q l :=
  ⟨h.stands.mono hQ, fun rest hrest => h.ends rest (hQ rest hrest)⟩

theorem trails_nil : Trails EndsDecimal [] := ⟨fun _ _ => True.intro, fun _ h => h⟩

theorem Stands.blank (h : Stands P l) : Trails P (.blank :: l) :=
  ⟨h, fun _ _ => endsDecimal_blank _⟩

theorem chars_newline (level : Nat) (l : Layout) :
    chars (.newline level :: l) = '\n' :: (List.replicate (4 * level) ' ' ++ l.chars) := by
  simp [Piece.text]

/-- Behind a line break anything that ends the line may stand. -/
theorem Stands.newline (h : Stands P l) (level : Nat) : Trails P (.newline level :: l) :=
  ⟨h, fun _ _ => by
    rw [chars_newline]
    exact endsDecimal_newline _⟩

theorem stands_nil : Stands P [] := fun _ _ => True.intro

theorem stands_token {t : Token} (h : ∀ rest, P rest → t.StandsBefore rest) : Stands P [.token t] :=
  fun rest hrest => ⟨h rest hrest, True.intro⟩

theorem stands_keyword (k : Keyword) : Stands EndsWord (keyword k) :=
  stands_token fun _ => standsBefore_keyword k

theorem stands_symbol {s : Symbol} (hs : s.Lone) : Stands Anything (symbol s) :=
  stands_token fun rest _ => hs.standsBefore rest

theorem trails_symbol {s : Symbol} (hs : s.Lone) (hnot : s ∉ [.hash, .dot, .dotDot, .dotDotDot]) :
    Trails Anything (symbol s) :=
  ⟨stands_symbol hs, fun rest _ => by
    rw [symbol, chars_cons, List.append_assoc]
    exact Symbol.endsDecimal_text hnot _⟩

theorem endsWord_of_endsDecimal {rest : List Char} (h : EndsDecimal rest) : EndsWord rest := h.name

theorem Stands.word (h : Stands EndsWord l) : Stands EndsDecimal l :=
  h.mono fun _ => endsWord_of_endsDecimal

theorem Stands.anywhere (h : Stands Anything l) : Stands P l := h.mono fun _ _ => True.intro

theorem Trails.anywhere (h : Trails Anything l) : Stands P l := h.stands.anywhere

/-- Behind a symbol that stands alone anything may follow. -/
theorem Stands.afterSymbol {s : Symbol} (h : Stands P l) (hs : s.Lone) :
    Stands P (symbol s ++ l) := by
  intro rest hrest
  exact ⟨hs.standsBefore _, h rest hrest⟩

theorem Stands.trailing {s : Symbol} (h : Stands P l) (hs : s.Lone)
    (hnot : s ∉ [.hash, .dot, .dotDot, .dotDotDot]) : Trails P (symbol s ++ l) :=
  ⟨h.afterSymbol hs, fun rest _ => by
    rw [symbol, List.singleton_append, chars_cons, List.append_assoc]
    exact Symbol.endsDecimal_text hnot _⟩

/-! ### Layouts in brackets and lists -/

/-- What is between two symbols that are told apart from everything. -/
theorem trails_enclose {o c : Symbol} (ho : o.Lone) (hc : c.Lone)
    (honot : o ∉ [.hash, .dot, .dotDot, .dotDotDot])
    (hcnot : c ∉ [.hash, .dot, .dotDot, .dotDotDot])
    (h : Stands EndsDecimal l) : Trails Anything (enclose o c l) := by
  have hinner : Stands Anything (l ++ symbol c) := h.append (trails_symbol hc hcnot)
  rw [enclose, List.append_assoc]
  exact hinner.trailing ho honot

theorem trails_parens (h : Stands EndsDecimal l) : Trails Anything (parens l) :=
  trails_enclose (Symbol.lone_of_mem (by simp)) (Symbol.lone_of_mem (by simp)) (by decide)
    (by decide) h

theorem stands_parensIf {b : Bool} (h : Stands EndsDecimal l) :
    Stands EndsDecimal (parensIf b l) := by
  cases b with
  | false => exact h
  | true => exact (trails_parens h).anywhere

/-- Elements with a separator between any two, if the separator and what is behind it may follow an
element. -/
theorem stands_join_of {R : Layout → Prop} {separator : Layout} {ls : List Layout}
    (happend : ∀ l m, R l → R (l ++ m))
    (hseparator : ∀ m, R m → Stands EndsDecimal m → Trails EndsDecimal (separator ++ m))
    (h : ∀ l ∈ ls, R l ∧ Stands EndsDecimal l) : Stands EndsDecimal (join separator ls) := by
  suffices hboth : Stands EndsDecimal (join separator ls) ∧ (ls ≠ [] → R (join separator ls)) from
    hboth.1
  induction ls with
  | nil => exact ⟨stands_nil, fun hne => absurd rfl hne⟩
  | cons l ls ih =>
      have hl := h l List.mem_cons_self
      cases ls with
      | nil => exact ⟨hl.2, fun _ => hl.1⟩
      | cons m ls =>
          obtain ⟨hstands, hrest⟩ := ih fun k hk => h k (List.mem_cons_of_mem _ hk)
          have hjoin : join separator (l :: m :: ls) =
              l ++ (separator ++ join separator (m :: ls)) :=
            List.append_assoc _ _ _
          rw [hjoin]
          exact ⟨hl.2.append (hseparator _ (hrest (List.cons_ne_nil m ls)) hstands),
            fun _ => happend _ _ hl.1⟩

/-- Layouts that are joined, if each of them may stand in front of the separator. -/
theorem stands_join {separator : Layout} {ls : List Layout}
    (hseparator : ∀ m, Stands EndsDecimal m → Trails EndsDecimal (separator ++ m))
    (h : ∀ l ∈ ls, Stands EndsDecimal l) : Stands EndsDecimal (join separator ls) :=
  stands_join_of (R := fun _ => True) (fun _ _ _ => True.intro) (fun m _ => hseparator m)
    fun l hl => ⟨True.intro, h l hl⟩

theorem stands_commas {ls : List Layout} (h : ∀ l ∈ ls, Stands EndsDecimal l) :
    Stands EndsDecimal (commas ls) :=
  stands_join (fun _ hm => Stands.trailing (s := .comma) hm.blank.stands
    (Symbol.lone_of_mem (by simp))
    (by decide)) h

/-- Layouts on lines of their own. -/
theorem trails_lines (level : Nat) {s : Symbol} {ls : List Layout}
    (hs : s = .comma ∨ s = .semicolon) (h : ∀ l ∈ ls, Stands EndsDecimal l) :
    Trails EndsDecimal (lines level s ls) := by
  have hlone : s.Lone := by
    rcases hs with rfl | rfl <;> exact Symbol.lone_of_mem (by simp)
  have hnot : s ∉ [.hash, .dot, .dotDot, .dotDotDot] := by
    rcases hs with rfl | rfl <;> decide
  have hlines : ∀ k ∈ ls.map fun k => .newline level :: k, Stands EndsDecimal k := by
    intro k hk
    obtain ⟨m, hm, rfl⟩ := List.mem_map.mp hk
    exact ((h m hm).newline level).stands
  refine ⟨stands_join (fun m hm => hm.trailing hlone hnot) hlines, fun rest hrest => ?_⟩
  cases ls with
  | nil => exact hrest
  | cons l ls =>
      obtain ⟨m, hm⟩ : ∃ m, lines level s (l :: ls) = .newline level :: m := by
        cases ls <;> exact ⟨_, rfl⟩
      rw [hm, chars_newline]
      exact endsDecimal_newline _

theorem trails_spaced {t : Token} (ht : ∀ rest, t.StandsBefore (' ' :: rest)) (h : Stands P m) :
    Trails P (spaced t ++ m) :=
  ⟨fun rest hrest => ⟨ht _, h rest hrest⟩, fun _ _ => endsDecimal_blank _⟩

theorem trails_spaced_symbol {s : Symbol} (hs : s ≠ .dot) (h : Stands P m) :
    Trails P (spaced (.symbol s) ++ m) :=
  trails_spaced (fun rest => Symbol.standsBefore_blank hs rest) h

/-! ### Layouts that open with a word, a number or a bracket -/

end Layout

/-- Tokens whose text starts with neither `=` nor `:`. -/
def Token.opens : Token → Bool
  | .symbol s => s.text.toList.head?.all fun c => c ≠ '=' && c ≠ ':'
  | .terminator | .comment => false
  | _ => true

namespace Layout

def Opens (l : Layout) : Prop := ∃ t m, l = .token t :: m ∧ t.opens = true

/-- What a layout opens with does not depend on what is behind it. -/
theorem Opens.append (h : Opens l) (m : Layout) : Opens (l ++ m) := by
  obtain ⟨t, k, rfl, ht⟩ := h
  exact ⟨t, k ++ m, rfl, ht⟩

theorem next?_eq_symbol {c : Char} {cs : List Char} {u : Token} {n : Nat} (hc : c = '=' ∨ c = ':')
    (h : next? c cs = some (u, n)) : ∃ s, u = .symbol s := by
  have hlongest : longest? c cs =
      (Symbol.longest? (c :: cs)).map fun s => (.symbol s, s.text.length - 1) := by
    rcases hc with rfl | rfl <;> rfl
  rw [next?, hlongest] at h
  cases hs : Symbol.longest? (c :: cs) with
  | none => simp [hs] at h
  | some s =>
      simp only [hs, Option.map_some, token?, Option.some.injEq, Prod.mk.injEq] at h
      exact ⟨s, h.1.symm⟩

/-- A colon or a slash directly in front of such a layout is a symbol of its own. -/
theorem Opens.avoids {rest : List Char} (h : Opens l) (hl : Spaced l rest) :
    Avoids (fun c => c = '=' || c = ':') (l.chars ++ rest) := by
  obtain ⟨t, m, rfl, ht⟩ := h
  obtain ⟨⟨c, cs, u, htext, -, hnext, -, hsettle⟩, -⟩ := hl
  have hchars : chars (.token t :: m) ++ rest = c :: (cs ++ (chars m ++ rest)) := by
    simp [Piece.text, htext]
  rw [hchars, avoids_cons]
  refine Bool.eq_false_iff.mpr fun hc => ?_
  obtain ⟨s, rfl⟩ := next?_eq_symbol (by simpa using hc) hnext
  by_cases hterminator : t = .terminator
  · subst hterminator
    cases ht
  · obtain rfl : Token.symbol s = t := by
      rw [Lexer.settle] at hsettle
      split at hsettle
      · exact absurd hsettle.symm hterminator
      · exact hsettle
    have hhead : s.text.toList = c :: cs := htext
    simp_all [Token.opens]

theorem extendedBy_colon {c : Char} (h : Symbol.colon.extendedBy c = true) :
    (decide (c = '=') || decide (c = ':')) = true := by
  have hc : c = ':' ∨ c = '=' := by simpa [Symbol.extendedBy, Symbol.all, Symbol.text] using h
  rcases hc with rfl | rfl <;> rfl

theorem extendedBy_slash {c : Char} (h : Symbol.slash.extendedBy c = true) :
    (decide (c = '=') || decide (c = ':')) = true := by
  have hc : c = '=' := by simpa [Symbol.extendedBy, Symbol.all, Symbol.text] using h
  simp [hc]

/-- A colon or a slash, and behind it what opens. -/
theorem Stands.afterMark {s : Symbol} (h : Stands P l) (hopens : Opens l)
    (hs : s = .colon ∨ s = .slash) :
    Trails P (symbol s ++ l) := by
  refine ⟨fun rest hrest => ⟨?_, h rest hrest⟩, fun rest _ => ?_⟩
  · have havoids := hopens.avoids (h rest hrest)
    rcases hs with rfl | rfl
    · exact standsBefore_symbol (havoids.mono fun _ => extendedBy_colon) (by simp)
    · exact standsBefore_symbol (havoids.mono fun _ => extendedBy_slash) (by simp)
  · rw [symbol, List.singleton_append, chars_cons, List.append_assoc]
    rcases hs with rfl | rfl <;> exact Symbol.endsDecimal_text (by decide) _

end Layout

end ErlangFragment
