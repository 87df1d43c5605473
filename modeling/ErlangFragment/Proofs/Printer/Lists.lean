import ErlangFragment.Proofs.Printer.Laws
import ErlangFragment.Proofs.Printer.Reading
import Mathlib.Data.List.Forall2

/-! The tokens of lists in a layout, and how they read. -/

namespace ErlangFragment

open Grammar Printer

/-- The token sequences with the separator between any two. -/
def between (separator : Token) : List (List Token) → List Token
  | [] => []
  | ts :: tss => ts ++ tss.flatMap (separator :: ·)

namespace Layout

@[simp] theorem tokens_symbol (s : Symbol) : (symbol s).tokens = [.symbol s] := rfl

@[simp] theorem tokens_keyword (k : Keyword) : (keyword k).tokens = [.keyword k] := rfl

@[simp] theorem tokens_spaced (t : Token) : (spaced t).tokens = [t] := rfl

@[simp] theorem tokens_enclose (o c : Symbol) (l : Layout) :
    (enclose o c l).tokens = .symbol o :: (l.tokens ++ [.symbol c]) := by
  simp [enclose]

@[simp] theorem tokens_parens (l : Layout) :
    (parens l).tokens = .symbol .leftParen :: (l.tokens ++ [.symbol .rightParen]) :=
      tokens_enclose _ _ l

@[simp] theorem tokens_parensIf (b : Bool) (l : Layout) :
    (parensIf b l).tokens = wrap b l.tokens := by
  cases b <;> simp [parensIf, wrap]

/-- The tokens of layouts that are joined by a separator of one token. -/
theorem tokens_join {separator : Layout} {s : Token} (hs : separator.tokens = [s])
    (ls : List Layout) : (join separator ls).tokens = between s (ls.map tokens) := by
  induction ls with
  | nil => rfl
  | cons l ls ih =>
      cases ls with
      | nil => simp [join, between]
      | cons m ls => simp [join, hs, ih, between]

@[simp] theorem tokens_commas (ls : List Layout) :
    (commas ls).tokens = between (.symbol .comma) (ls.map tokens) := tokens_join rfl ls

/-- Line breaks have no tokens. -/
@[simp] theorem tokens_lines (level : Nat) (separator : Symbol) (ls : List Layout) :
    (lines level separator ls).tokens = between (.symbol separator) (ls.map tokens) := by
  rw [lines, tokens_join rfl, List.map_map]
  rfl

end Layout

namespace Printer

open Layout

@[simp] theorem tokens_atom (name : String) : (atom name).tokens = [.atom name] := rfl

@[simp] theorem tokens_var (name : String) : (var name).tokens = [.var name] := rfl

@[simp] theorem tokens_endLine (level : Nat) : (endLine level).tokens = [.keyword .end_] := rfl

@[simp] theorem tokens_guardSequence (gs : List Layout) :
    (guardSequence gs).tokens = between (.symbol .semicolon) (gs.map tokens) := tokens_join rfl gs

@[simp] theorem tokens_arrowBody (level : Nat) (body : List Layout) :
    (arrowBody level body).tokens =
      .symbol .arrow :: between (.symbol .comma) (body.map tokens) := by
  simp [arrowBody]

/-- Each token sequence reads as its meaning, in front of any token of the class. -/
def Elements (p : Phrase) (b : Bool) (stop : Option Token → Prop) :
    List p.Result → List (List Token) → Prop :=
  List.Forall₂ fun r ts => ∀ next, stop next → Derivation b p r (unplaced ts) next

variable {p : Phrase} {b : Bool} {stop : Option Token → Prop} {rs : List p.Result}
  {tss : List (List Token)} {s : Token} {next : Option Token}

/-- Further elements, each behind a separator, if each of them is read in front of one. -/
theorem Elements.more (h : Elements p b stop rs tss) (hs : stop (some s)) (hn : stop next)
    (hne : next ≠ some s) : Derivation b (.more s p) rs (unplaced (tss.flatMap (s :: ·))) next := by
  induction h with
  | nil => exact .moreNil hne
  | @cons r ts rs tss d h ih =>
      have hfirst : stop (firstOf (unplaced (tss.flatMap (s :: ·))) next) := by
        cases tss with
        | nil => exact hn
        | cons us tss => exact hs
      have dmore : Derivation b (.more s p) (r :: rs) (s.unplaced :: (unplaced ts ++ _)) next :=
        .moreCons rfl (d _ hfirst) ih
      simpa using dmore

/-- Elements between separators read as a separated sequence. -/
theorem Elements.separated (h : Elements p b stop rs tss) (hrs : rs ≠ []) (hs : stop (some s))
    (hn : stop next) (hne : next ≠ some s) :
    Derivation b (.separated s p) rs (unplaced (between s tss)) next := by
  cases h with
  | nil => exact absurd rfl hrs
  | @cons r ts rs tss d h =>
      have hfirst : stop (firstOf (unplaced (tss.flatMap (s :: ·))) next) := by
        cases tss with
        | nil => exact hn
        | cons us tss => exact hs
      have dlist : Derivation b (.separated s p) (r :: rs) (unplaced ts ++ _) next :=
        .separated (d _ hfirst) (Elements.more h hs hn hne)
      simpa [between] using dlist

end Printer

end ErlangFragment
