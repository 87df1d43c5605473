import ErlangFragment.Token.Lexer

/-! What the tokens of a text are made of. -/

namespace ErlangFragment

open Lexeme Lexer

variable {c : Char} {cs : List Char} {kind : LexemeKind} {n : Nat}

/-- A token comes from the longest lexeme at its place. -/
theorem next?_eq_some {t : Token} (h : next? c cs = some (t, n)) :
    ∃ kind, longest? c cs = some (kind, n) ∧ token? kind (c :: cs.take n) = some t := by
  rw [next?] at h
  cases hl : longest? c cs with
  | none => simp [hl] at h
  | some r =>
      obtain ⟨kind, k⟩ := r
      simp only [hl, Option.map_eq_some_iff, Prod.mk.injEq] at h
      obtain ⟨_, h, rfl, rfl⟩ := h
      exact ⟨kind, rfl, h⟩

theorem token?_ne_terminator (kind : LexemeKind) (lexeme : List Char) :
    token? kind lexeme ≠ some .terminator := by
  cases kind <;> simp [token?, wordToken, basedToken?, characterToken?] <;> split <;> simp

theorem eq_symbol_of_token? {kind : LexemeKind} {lexeme : List Char} {s : Symbol}
    (h : token? kind lexeme = some (.symbol s)) : kind = .symbol s := by
  cases kind <;> simp_all [token?, wordToken, basedToken?, characterToken?]
  all_goals split at h <;> simp_all

theorem number_kind (cs : List Char) :
    (number cs).1 = .based ∨ (number cs).1 = .float ∨ (number cs).1 = .decimal := by
  simp only [number]
  repeat' split
  all_goals simp

/-- What the first character of a lexeme says about its kind. -/
inductive Lexeme.Heads (c : Char) (cs : List Char) : LexemeKind → Nat → Prop
  | word (n : Nat) : c.isLower = true → Heads c cs .word n
  | var : isVariableStart c = true → Heads c cs .var (cs.takeWhile isNameChar).length
  | number {kind : LexemeKind} {n : Nat} : c.isDigit = true → number cs = (kind, n) →
      Heads c cs kind n
  | character (n : Nat) : c = '$' → Heads c cs .character n
  | string (n : Nat) : c = '"' → Heads c cs .string n
  | quotedAtom (n : Nat) : c = '\'' → Heads c cs .quotedAtom n
  | comment : c = '%' → Heads c cs .comment (cs.takeWhile (· ≠ '\n')).length
  | symbol {s : Symbol} : Symbol.longest? (c :: cs) = some s →
      Heads c cs (.symbol s) (s.text.length - 1)

/-- The first character tells which kinds of lexeme there may be. -/
theorem longest?_heads (h : longest? c cs = some (kind, n)) : Lexeme.Heads c cs kind n := by
  rw [longest?] at h
  repeat' split at h
  · cases h
    exact .word _ ‹_›
  · cases h
    exact .var ‹_›
  · exact .number ‹_› (Option.some.inj h)
  · obtain ⟨_, -, heq⟩ := Option.map_eq_some_iff.mp h
    cases heq
    exact .character _ ‹_›
  · obtain ⟨_, -, heq⟩ := Option.map_eq_some_iff.mp h
    cases heq
    exact .string _ ‹_›
  · obtain ⟨_, -, heq⟩ := Option.map_eq_some_iff.mp h
    cases heq
    exact .quotedAtom _ ‹_›
  · cases h
    exact .comment ‹_›
  · obtain ⟨_, hs, heq⟩ := Option.map_eq_some_iff.mp h
    cases heq
    exact .symbol hs

theorem longest?_symbol {s : Symbol} (h : longest? c cs = some (.symbol s, n)) :
    Symbol.longest? (c :: cs) = some s ∧ n = s.text.length - 1 := by
  cases longest?_heads h with
  | number _ hnumber =>
      have hkind := number_kind cs
      simp [hnumber] at hkind
  | symbol hs => exact ⟨hs, rfl⟩

/-- A dot is all of its lexeme. -/
theorem next?_dot (h : next? c cs = some (.symbol .dot, n)) : n = 0 := by
  obtain ⟨kind, hl, ht⟩ := next?_eq_some h
  obtain rfl := eq_symbol_of_token? ht
  exact (longest?_symbol hl).2

end ErlangFragment
