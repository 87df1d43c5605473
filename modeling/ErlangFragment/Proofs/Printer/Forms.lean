import ErlangFragment.Proofs.Grammar.Cutting
import ErlangFragment.Proofs.Printer.Legible
import ErlangFragment.Proofs.Printer.RawTokens
import ErlangFragment.Proofs.Printer.Trees

/-! The layout of forms. Each form reads as itself, its tokens are told apart, and it ends where the
next one begins. -/

namespace ErlangFragment

open Grammar Layout Lexer

namespace Printer

variable {f : Form} {name : String} {arity : Nat} {c : Clause} {cs : List (Located Clause)}
  {rest : List Char}

/-! ### Reading -/

/-- What is asked of a form for its layout to mean the form again. Raw tokens belong to the
attributes that are read in that way, and they leave no bracket open. -/
def ReadableForm : Form → Prop
  | .function _ arity cs =>
      (cs ≠ [] ∧ ∀ c ∈ cs, c.node.patterns.length = arity) ∧ readable.clauses cs
  | .attribute name (.exprs es) => name.node ∉ rawAttributes ∧ readable.exprs es
  | .attribute name (.tokens ts) =>
    name.node ∈ rawAttributes ∧ (∀ t ∈ ts, t ≠ .terminator) ∧ openBrackets (unplaced ts) ≤ 0

theorem closesList_terminator : ClosesList false (some .terminator) :=
  ⟨⟨⟨⟨by simp, by simp, by simp⟩, by simp⟩, rfl⟩, by simp⟩

/-- The tokens of a clause of the function. -/
def functionTokens (name : String) (c : Located Clause) : List Token :=
  .atom name :: (clause .args 0 c.node).tokens

/-- The layout of a clause behind the name of a function reads as a clause of the function. -/
theorem ClauseReads.functionClause (h : ClauseReads false 0 c) (name : String) {s : Span}
    {next : Option Token} (hnext : ClosesList false next) :
    FunctionClause ⟨name, .nowhere⟩ (erase (⟨c, s⟩ : Located Clause))
      (unplaced (functionTokens name ⟨c, s⟩)) next := by
  have d := FunctionClause.intro (n := (Token.atom name).unplaced) rfl h.patterns.argPatterns
    (h.rest (erase c.patterns) hnext)
  rw [← unplaced_append, ← tokens_clause_args, span_unplaced, lastSpan_unplaced,
    nowhere_through_nowhere] at d
  exact d

theorem length_erase {α : Type} [Erasable α] (as : List α) : (erase as).length = as.length :=
  List.length_map _

/-- The tokens of the clauses behind the first one. -/
def furtherTokens (name : String) (cs : List (Located Clause)) : List Token :=
  cs.flatMap fun c => .symbol .semicolon :: functionTokens name c

theorem closesList_further (name : String) (cs : List (Located Clause)) :
    ClosesList false (firstOf (unplaced (furtherTokens name cs)) (some .terminator)) := by
  cases cs with
  | nil => exact closesList_terminator
  | cons c cs => exact closesList_symbol (s := .semicolon) (by decide) rfl

/-- The clauses behind the first one read as further clauses of the function. -/
theorem ClausesRead.furtherClauses (h : ClausesRead false 0 cs)
    (hlen : ∀ c ∈ cs, c.node.patterns.length = arity) :
    FurtherClauses (name, arity) (erase cs) (unplaced (furtherTokens name cs)) := by
  induction cs with
  | nil => exact .nil
  | cons c cs ih =>
      obtain ⟨hc, hcs⟩ := List.forall_mem_cons.mp h
      obtain ⟨hlenc, hlens⟩ := List.forall_mem_cons.mp hlen
      have d := FurtherClauses.cons (s := (Token.symbol .semicolon).unplaced) rfl
        (hc.functionClause name (closesList_further name cs))
        (congrArg (Prod.mk name) ((length_erase _).trans hlenc)) (ih hcs hlens)
      rw [furtherTokens, List.flatMap_cons, unplaced_append]
      exact d

theorem tokens_function (name : Located String) (arity : Nat) (cs : List (Located Clause)) :
    (form (.function name arity cs)).tokens =
      between (.symbol .semicolon) (cs.map (functionTokens name.node)) ++ [.terminator] := by
  have hjoin : ∀ ls : List Layout, (join (symbol .semicolon ++ [.newline 0]) ls).tokens =
      between (.symbol .semicolon) (ls.map tokens) := tokens_join rfl
  simp only [form, tokens_append, hjoin, clauses_eq_map, List.map_map]
  rfl

/-- The layout of a function reads as the function. -/
theorem function_reads {name : Located String} (h : ReadableForm (.function name arity cs)) :
    FormDerivation ⟨.function (erase name) arity (erase cs), .nowhere⟩
      (unplaced (between (.symbol .semicolon) (cs.map (functionTokens name.node)))) := by
  obtain ⟨⟨hne, hlen⟩, hcs⟩ := h
  have hread : ClausesRead false 0 cs := reads_clauses cs false 0 hcs (absurd · Bool.false_ne_true)
  obtain ⟨c, cs, rfl⟩ := List.exists_cons_of_ne_nil hne
  obtain ⟨hc, hcs⟩ := List.forall_mem_cons.mp hread
  obtain ⟨harity, hlens⟩ := List.forall_mem_cons.mp hlen
  obtain rfl : (erase c).node.patterns.length = arity := (length_erase _).trans harity
  have d := FormDerivation.function (hc.functionClause name.node (closesList_further name.node cs))
    (ClausesRead.furtherClauses hcs hlens)
  rw [← unplaced_append, lastSpan_unplaced] at d
  have htokens : between (.symbol .semicolon) ((c :: cs).map (functionTokens name.node)) =
      functionTokens name.node c ++ furtherTokens name.node cs := by
    simp [between, furtherTokens, List.flatMap_map]
  rw [htokens]
  exact d

theorem tokens_rawTokens (afterDot : Bool) (ts : List Token) :
    (rawTokens afterDot ts).tokens = ts := by
  induction ts generalizing afterDot with
  | nil => rfl
  | cons t ts ih =>
      rw [rawTokens]
      split <;> simp [ih]

/-- The layout of an attribute reads as the attribute, its tokens raw or in parentheses. -/
theorem attribute_reads {name : Located String} {value : AttributeValue}
    (h : ReadableForm (.attribute name value)) :
    FormDerivation ⟨.attribute (erase name) (erase value), .nowhere⟩
      (unplaced (.symbol .minus :: .atom name.node :: (attributeValue value).tokens)) := by
  have hminus : (Token.symbol .minus).unplaced.node = .symbol .minus := rfl
  have hname : attributeName? (Token.atom name.node).unplaced.node = some name.node := rfl
  match value with
  | .exprs [] => exact .plain hminus hname h.1
  | .exprs (e :: es) =>
    have hes : ReadsEach false 0 (e :: es) :=
      reads_exprs (e :: es) false 0 h.2 (absurd · Bool.false_ne_true)
    have d := FormDerivation.args (l := (Token.symbol .leftParen).unplaced)
      (r := (Token.symbol .rightParen).unplaced) hminus hname h.1 rfl
      (hes.exprs (List.cons_ne_nil e es) (closesList_symbol (s := .rightParen) (by decide) rfl)) rfl
    have htokens : (attributeValue (.exprs (e :: es))).tokens = .symbol .leftParen ::
        (between (.symbol .comma) ((exprs 0 (e :: es)).map tokens) ++ [.symbol .rightParen]) := by
      simp [attributeValue]
    rw [htokens]
    simp only [unplaced_cons, unplaced_append, unplaced_nil]
    exact d
  | .tokens ts =>
    have hno : ∀ t ∈ unplaced ts, t.node ≠ .terminator := by
      intro t ht
      obtain ⟨u, hu, rfl⟩ := List.mem_map.mp ht
      exact h.2.1 u hu
    have d := FormDerivation.tokens hminus hname h.1 hno
    rw [map_node_unplaced, span_unplaced, span_unplaced, lastSpan_unplaced] at d
    rw [attributeValue, tokens_rawTokens]
    exact d

/-- The layout of a form reads as the form, in front of the terminator that it ends with. -/
theorem form_reads (h : ReadableForm f) :
    ∃ ts, (form f).tokens = ts ++ [.terminator] ∧
    FormDerivation ⟨f.eraseParts, .nowhere⟩ (unplaced ts) := by
  match f with
  | .function name arity cs => exact ⟨_, tokens_function name arity cs, function_reads h⟩
  | .attribute name value =>
    refine ⟨.symbol .minus :: .atom name.node :: (attributeValue value).tokens, by simp [form], ?_⟩
    exact attribute_reads h

/-- The layout of a form is cut behind its own terminator and nowhere in it. -/
theorem isPart_form (h : ReadableForm f) : IsPart (unplaced (form f).tokens) := by
  obtain ⟨ts, htokens, d⟩ := form_reads h
  refine ⟨unplaced ts, (Token.terminator).unplaced, by simp [htokens], rfl, ?_⟩
  match f with
  | .function _ _ _ | .attribute _ (.exprs _) =>
    exact ⟨(d.balanced rfl).noTerminator, Int32.le_of_eq (d.balanced rfl).closed⟩
  | .attribute name (.tokens raw) =>
    obtain rfl : .symbol .minus :: .atom name.node :: raw = ts := by
      refine List.append_cancel_right (Eq.trans ?_ htokens)
      simp [form, attributeValue, tokens_rawTokens]
    simpa [bracketStep, unplaced] using h.2

/-- The tokens of forms in their layouts, one form after the other, are read as the forms. -/
theorem parseForms_layout {fs : List (Located Form)} (h : ∀ f ∈ fs, ReadableForm f.node) :
    parseForms (unplaced (fs.flatMap fun f => (form f.node).tokens)) = .ok (erase fs) := by
  have hflatten : unplaced (fs.flatMap fun f => (form f.node).tokens) =
      (fs.map fun f => unplaced (form f.node).tokens).flatten := by
    simp [unplaced, List.flatMap_def, List.map_flatten, Function.comp_def]
  rw [hflatten]
  refine parseForms_iff.mpr ⟨_, cutForms_flatten_of_parts
    (List.forall_mem_map.mpr fun f hf => isPart_form (h f hf)), ?_⟩
  refine List.forall₂_map_left_iff.mpr
    (List.forall₂_map_right_iff.mpr (List.forall₂_same.mpr fun f hf => ?_))
  obtain ⟨ts, htokens, d⟩ := form_reads (h f hf)
  exact ⟨unplaced ts, (Token.terminator).unplaced, by simp [htokens], rfl, d⟩

/-! ### Telling the tokens apart -/

/-- What sets the tokens of a form apart. -/
def LegibleForm : Form → Prop
  | .function _ _ cs => legible.clauses cs
  | .attribute _ (.exprs es) => legible.exprs es
  | .attribute _ (.tokens ts) =>
    (∀ t ∈ ts, t.Lexed ∧ t ≠ .terminator) ∧ (∀ x, .float x ∈ ts → Binary64.ReadsBack x) ∧
      (ts ++ [Token.terminator]).IsChain DotsApart ∧ KeepApart ts

theorem endsDecimal_dot (hrest : endsForm rest = true) : EndsDecimal ('.' :: rest) := by
  refine ⟨(avoids_cons _ _ _).mpr (by decide), fun d ds heq => ?_, fun d ds heq => by cases heq⟩
  obtain ⟨-, rfl⟩ := List.cons.inj heq
  exact not_isDigit_of_endsForm hrest d rfl

theorem spaced_terminator {l : Layout} (h : Stands EndsDecimal l) (hrest : endsForm rest = true) :
    Spaced (l ++ [.token .terminator]) rest := by
  rw [spaced_append]
  exact ⟨h _ (endsDecimal_dot hrest), standsBefore_terminator hrest, True.intro⟩

theorem spaced_function {name : Located String} (h : legible.clauses cs)
    (hrest : endsForm rest = true) :
    Spaced (form (.function name arity cs)) rest := by
  refine spaced_terminator (stands_semicolonLines 0 fun l hl => ?_) hrest
  rw [clauses_eq_map, List.map_map] at hl
  obtain ⟨c, hc, rfl⟩ := List.mem_map.mp hl
  exact (stands_atom name.node).word.append ((clauses_stand cs 0 h c hc).args 0)

theorem endsWord_rawForm (ts : List Token) (rest : List Char) :
    EndsWord ((rawForm false ts).chars ++ rest) := by
  cases ts with
  | nil => exact (avoids_cons _ _ _).mpr (by decide)
  | cons t ts =>
      by_cases hdot : t = .symbol .dot
      · subst hdot
        rw [rawForm_dot]
        exact (avoids_cons _ _ _).mpr (by decide)
      · rw [rawForm_blank hdot]
        exact (avoids_cons _ _ _).mpr (by decide)

/-- The value of an attribute and the dot behind it, where the name of the attribute ends. -/
theorem spaced_attributeValue {name : Located String} {value : AttributeValue}
    (h : LegibleForm (.attribute name value)) (hrest : endsForm rest = true) :
    Spaced (attributeValue value ++ [.token .terminator]) rest ∧
      EndsWord (chars (attributeValue value ++ [.token .terminator]) ++ rest) := by
  match value with
  | .exprs [] =>
    exact ⟨⟨standsBefore_terminator hrest, True.intro⟩, (avoids_cons _ _ _).mpr (by decide)⟩
  | .exprs (e :: es) =>
    have hparens := trails_parens (stands_commas (stands_exprs (e :: es) 0 h))
    refine ⟨spaced_terminator hparens.anywhere hrest, ?_⟩
    rw [chars_append, List.append_assoc]
    exact endsWord_of_endsDecimal (hparens.ends _ True.intro)
  | .tokens ts =>
    obtain ⟨hlexed, hfloat, hdots, hapart⟩ := h
    exact ⟨spaced_rawForm hlexed hfloat hdots hapart hrest, endsWord_rawForm ts rest⟩

theorem spaced_attribute {name : Located String} {value : AttributeValue}
    (h : LegibleForm (.attribute name value)) (hrest : endsForm rest = true) :
    Spaced (form (.attribute name value)) rest := by
  obtain ⟨hvalue, hword⟩ := spaced_attributeValue h hrest
  have hlayout : form (.attribute name value) =
      .token (.symbol .minus) :: (atom name.node ++
        (attributeValue value ++ [.token .terminator])) := by
    simp [form, symbol]
  rw [hlayout]
  refine ⟨minus_before_atom _ _ _, ?_⟩
  rw [spaced_append]
  exact ⟨stands_atom name.node _ hword, hvalue⟩

/-- The tokens of a form are told apart. -/
theorem spaced_form (h : LegibleForm f) (hrest : endsForm rest = true) : Spaced (form f) rest := by
  match f with
  | .function _ _ _ => exact spaced_function h hrest
  | .attribute _ _ => exact spaced_attribute h hrest

/-! ### Sequences of forms -/

theorem tokens_laterForm (f : Form) : (laterForm f).tokens = (form f).tokens := by
  cases f <;> simp [laterForm]

theorem tokens_forms (fs : List (Located Form)) :
    (forms fs).tokens = fs.flatMap fun f => (form f.node).tokens := by
  cases fs with
  | nil => rfl
  | cons f fs =>
      have hlater : ∀ gs : List (Located Form), tokens (gs.flatMap fun g => laterForm g.node) =
          gs.flatMap fun g => (form g.node).tokens := by
        intro gs
        induction gs with
        | nil => rfl
        | cons g gs ih => simp [tokens_laterForm, ih]
      simp [forms, hlater]

theorem spaced_formLine (h : LegibleForm f) : Spaced (form f ++ [.newline 0]) rest := by
  rw [spaced_append]
  exact ⟨spaced_form h rfl, True.intro⟩

theorem spaced_laterForm (h : LegibleForm f) : Spaced (laterForm f) rest := by
  match f with
  | .function _ _ _ => exact spaced_formLine h
  | .attribute _ _ => exact spaced_formLine h

/-- The tokens of all forms are told apart: each form ends its line. -/
theorem spaced_forms {fs : List (Located Form)} (h : ∀ f ∈ fs, LegibleForm f.node) :
    Spaced (forms fs) rest := by
  have hlater : ∀ gs : List (Located Form), (∀ g ∈ gs, LegibleForm g.node) →
      Spaced (gs.flatMap fun g => laterForm g.node) rest := by
    intro gs hgs
    induction gs with
    | nil => exact True.intro
    | cons g gs ih =>
        obtain ⟨hg, hgs⟩ := List.forall_mem_cons.mp hgs
        rw [List.flatMap_cons, spaced_append]
        exact ⟨spaced_laterForm hg, ih hgs⟩
  cases fs with
  | nil => exact True.intro
  | cons f fs =>
      obtain ⟨hf, hfs⟩ := List.forall_mem_cons.mp h
      rw [forms, spaced_append]
      exact ⟨spaced_formLine hf, hlater fs hfs⟩

end Printer

end ErlangFragment
