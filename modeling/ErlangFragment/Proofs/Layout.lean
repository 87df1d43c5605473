import ErlangFragment.Layout
import ErlangFragment.Proofs.Token.Lexeme

/-! Reading the text of a layout. If each token stands before what is laid out behind it, the text
has exactly the tokens of the layout. -/

namespace ErlangFragment

namespace Lexer

/-- The text has exactly these tokens, wherever it stands. -/
def Reads (cs : List Char) (ts : List Token) : Prop :=
  ∀ offset line, ∃ toks endLine, scan offset line cs = .ok (toks, endLine) ∧
    toks.map Located.node = ts

theorem reads_nil : Reads [] [] := fun _ line => ⟨[], line, by rw [scan], rfl⟩

/-- Blanks in front change no token. -/
theorem Reads.layout {c : Char} {cs : List Char} {ts : List Token} (h : Reads cs ts)
    (hc : isLayout c = true) : Reads (c :: cs) ts := by
  intro offset line
  obtain ⟨toks, endLine, hscan, hnodes⟩ :=
    h (offset + c.utf8Size) (if c = '\n' then advanceLine line 1 else line)
  exact ⟨toks, endLine, by rw [scan, if_pos hc, hscan], hnodes⟩

theorem Reads.layouts {blanks cs : List Char} {ts : List Token} (h : Reads cs ts)
    (hblanks : ∀ c ∈ blanks, isLayout c = true) : Reads (blanks ++ cs) ts := by
  induction blanks with
  | nil => exact h
  | cons c blanks ih =>
      have htail := ih fun d hd => hblanks d (List.mem_cons_of_mem c hd)
      exact htail.layout (hblanks c List.mem_cons_self)

/-- A lexeme in front is one more token. -/
theorem Reads.lexeme {c : Char} {cs rest : List Char} {t : Token} {ts : List Token}
    (h : Reads rest ts) (hc : isLayout c = false)
    (ht : Lexeme.next? c (cs ++ rest) = some (t, cs.length))
    (hcomment : t ≠ .comment) : Reads (c :: (cs ++ rest)) (settle t rest :: ts) := by
  intro offset line
  obtain ⟨toks, endLine, hscan, hnodes⟩ :=
    h (spanOf offset line c (cs ++ rest) cs.length).stop
      (advanceLine line (newlines (c :: cs)))
  refine ⟨⟨settle t rest, spanOf offset line c (cs ++ rest) cs.length⟩ :: toks, endLine, ?_,
    by simp [hnodes]⟩
  rw [scan]
  simp [hc, ht, hscan, hcomment]

/-- A token in front of a text that it is told apart from. -/
theorem Reads.token {t : Token} {rest : List Char} {ts : List Token} (h : Reads rest ts)
    (ht : t.StandsBefore rest) : Reads (t.text.toList ++ rest) (t :: ts) := by
  obtain ⟨c, cs, u, htext, hlayout, hnext, hcomment, hsettle⟩ := ht
  rw [htext, ← hsettle]
  exact h.lexeme hlayout hnext hcomment

end Lexer

namespace Layout

open Lexer

/-- The characters of a layout. -/
def chars (l : Layout) : List Char := l.flatMap fun p => p.text.toList

theorem toList_text (l : Layout) : l.text.toList = l.chars := by
  have hfold : ∀ s : String, (l.foldl (fun s p => s ++ p.text) s).toList = s.toList ++ l.chars := by
    induction l with
    | nil => simp [chars]
    | cons p l ih =>
        intro s
        rw [List.foldl_cons, ih]
        simp [chars]
  simpa [text] using hfold ""

@[simp] theorem chars_nil : chars [] = [] := rfl

@[simp] theorem chars_cons (p : Piece) (l : Layout) :
    chars (p :: l) = p.text.toList ++ chars l := rfl

@[simp] theorem chars_append (l m : Layout) : (l ++ m).chars = l.chars ++ m.chars :=
  List.flatMap_append

@[simp] theorem tokens_nil : tokens [] = [] := rfl

@[simp] theorem tokens_token (t : Token) (l : Layout) :
    tokens (.token t :: l) = t :: tokens l := rfl

@[simp] theorem tokens_blank (l : Layout) : tokens (.blank :: l) = tokens l := rfl

@[simp] theorem tokens_newline (level : Nat) (l : Layout) :
    tokens (.newline level :: l) = tokens l := rfl

@[simp] theorem tokens_append (l m : Layout) : (l ++ m).tokens = l.tokens ++ m.tokens :=
  List.filterMap_append

/-- Every token of the layout is told apart from what stands behind it, with `rest` behind the
layout. -/
def Spaced : Layout → List Char → Prop
  | [], _ => True
  | .token t :: l, rest => t.StandsBefore (chars l ++ rest) ∧ Spaced l rest
  | .blank :: l, rest => Spaced l rest
  | .newline _ :: l, rest => Spaced l rest

@[simp] theorem spaced_nil (rest : List Char) : Spaced [] rest := True.intro

@[simp] theorem spaced_token (t : Token) (l : Layout) (rest : List Char) :
    Spaced (.token t :: l) rest ↔ t.StandsBefore (l.chars ++ rest) ∧ Spaced l rest := Iff.rfl

@[simp] theorem spaced_blank (l : Layout) (rest : List Char) :
    Spaced (.blank :: l) rest ↔ Spaced l rest := Iff.rfl

@[simp] theorem spaced_newline (level : Nat) (l : Layout) (rest : List Char) :
    Spaced (.newline level :: l) rest ↔ Spaced l rest := Iff.rfl

/-- Layouts one after the other. -/
theorem spaced_append (l m : Layout) (rest : List Char) :
    Spaced (l ++ m) rest ↔ Spaced l (m.chars ++ rest) ∧ Spaced m rest := by
  induction l with
  | nil => simp
  | cons p l ih =>
      cases p with
      | token t => simp [ih, and_assoc]
      | blank => simp [ih]
      | newline level => simp [ih]

/-- The text of a layout has its tokens, where they are told apart. -/
theorem Spaced.reads {l : Layout} {rest : List Char} {ts : List Token} (h : Spaced l rest)
    (hr : Reads rest ts) : Reads (l.chars ++ rest) (l.tokens ++ ts) := by
  induction l with
  | nil => exact hr
  | cons p l ih =>
      cases p with
      | token t =>
          have htail := ih h.2
          simpa [Piece.text] using htail.token h.1
      | blank => exact (ih h).layout (by decide)
      | newline level =>
          rw [chars_cons, List.append_assoc]
          refine (ih h).layouts fun c hc => ?_
          simp only [Piece.text, String.toList_ofList, List.mem_cons, List.mem_replicate] at hc
          rcases hc with rfl | ⟨-, rfl⟩ <;> decide

/-- The text of a layout is read as the tokens of the layout. -/
theorem Spaced.tokenize {l : Layout} (h : Spaced l []) (line : Nat) :
    ∃ toks endLine, tokenize l.text line = .ok (toks, endLine) ∧
    toks.map Located.node = l.tokens := by
  have hreads := h.reads reads_nil 0 line
  rwa [List.append_nil, List.append_nil, ← toList_text] at hreads

end Layout

end ErlangFragment
