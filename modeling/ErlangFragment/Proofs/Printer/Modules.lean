import ErlangFragment.Proofs.Grammar.Segments
import ErlangFragment.Proofs.Grammar.Shape
import ErlangFragment.Proofs.Printer.Forms
import ErlangFragment.Proofs.Source
import ErlangFragment.Proofs.Tree.Alike

/-! Reading the text of the forms of a module gives the forms again, but for spans, if no node and
no raw token in them is of the few kinds that the layout runs together with its neighbours. -/

namespace ErlangFragment

open Grammar Layout Lexer Printer

namespace Printer

/-! ### What keeps apart -/

/-- What sets the tokens of a node apart, if its numbers and names are those of a source text. A
decimal number in front of a hash and a plain name is taken for the base of a number. -/
def SetApart : Expr → Prop
  | .float x => x.ReadsBack
  | .record (some b) name _ | .recordAccess b name _ =>
    isPlainAtom name = true → baseNeedsParens b.node = false → endsInDecimal b.node = false
  | .macroUse name _ => IsMacroName name
  | _ => True

/-- Everything in a tree is laid out so that it keeps apart from its neighbours. -/
def faithful : Requirement := ⟨fun e => HoldsTogether e ∧ SetApart e, fun _ => True⟩

/-- Nothing in the form is run together with its neighbours when it is laid out. -/
def FaithfulForm : Form → Prop
  | .function _ _ cs => faithful.clauses cs
  | .attribute _ (.exprs es) => faithful.exprs es
  | .attribute _ (.tokens ts) => (∀ x, .float x ∈ ts → Binary64.ReadsBack x) ∧ KeepApart ts

/-- A tree of a source reads back from its layout, if it holds together. -/
theorem readable_of_faithful : Requirement.Combine (shapedOf Token.Lexed) faithful readable where
  node _ h hf _ := ⟨h.1, hf.1⟩
  clause _ h _ := h

theorem isSegmentType_of_lexed {t : SegmentType}
    (h : ∀ n ∈ t.arg, (Token.integer (.small n)).Lexed) : IsSegmentType t :=
  fun n hn => (h n hn).integer.bounds rfl

/-- The tokens of a tree of a source are told apart, if it is set apart. -/
theorem legible_of_faithful : Requirement.Combine (shapedOf Token.Lexed) faithful legible where
  clause _ _ _ := True.intro
  node e h hf _ := by
    obtain ⟨-, hworded⟩ := h
    obtain ⟨-, hapart⟩ := hf
    cases e
    case integer => exact hworded.integer
    case float => exact ⟨⟨hapart.1, hworded.float⟩, hapart.2⟩
    case var => exact hworded.var
    case binary => exact fun s hs t ht => isSegmentType_of_lexed (hworded s hs t ht)
    case record base _ _ _ =>
      cases base with
      | none => exact True.intro
      | some _ => exact hapart
    case recordAccess => exact hapart
    case funExpr name _ _ =>
      cases name with
      | none => exact True.intro
      | some _ => exact hworded.var
    case macroUse => exact hapart
    all_goals exact True.intro

/-! ### Forms of a source text -/

/-- What the cut into forms and the names of the attributes say about a form. -/
def CutForm : Form → Prop
  | .function _ _ _ => True
  | .attribute name (.exprs _) => name.node ∉ rawAttributes
  | .attribute name (.tokens ts) =>
    name.node ∈ rawAttributes ∧ (ts ++ [Token.terminator]).IsChain DotsApart ∧
      openBrackets (unplaced ts) ≤ 0

theorem openBrackets_unplaced (ts : List (Located Token)) :
    openBrackets (unplaced (ts.map Located.node)) = openBrackets ts := by
  induction ts with
  | nil => rfl
  | cons t ts ih => simp [ih]

/-- The raw tokens of a source end where the cut has ended them, and their dots are apart. -/
theorem cutForm_of_formOf {part : List (Located Token)} {f : Located Form} (h : FormOf part f)
    (hdots : part.IsChain fun t u => DotsApart t.node u.node) (hclosed : openBrackets part ≤ 0) :
    CutForm f.node := by
  obtain ⟨toks, t, rfl, ht, d⟩ := h
  cases d with
  | function => exact True.intro
  | @tokens name ts m n hm hn hraw hno =>
      have hvalue : (ts ++ [t]).IsChain fun t u => DotsApart t.node u.node :=
        (List.isChain_cons.mp (List.isChain_cons.mp hdots).2).2
      have hmap : ts.map Located.node ++ [Token.terminator] =
          (ts ++ [t]).map Located.node := by simp [ht]
      obtain ⟨-, hname⟩ := isLevel_of_attributeName? hn
      refine ⟨hraw, ?_, ?_⟩
      · rw [hmap, List.isChain_map]
        exact hvalue
      · have hminus : bracketStep m.node = 0 := hm ▸ rfl
        have hend : bracketStep t.node = 0 := ht ▸ rfl
        rw [openBrackets_unplaced]
        simpa [hminus, hname, hend] using hclosed
  | plain _ _ hname | noArgs _ _ hname | args _ _ hname => exact hname

theorem readableForm_of_source {f : Form} (hshape : f.ShapedOf Token.Lexed) (hcut : CutForm f)
    (h : FaithfulForm f) : ReadableForm f := by
  match f with
  | .function _ _ cs =>
    exact ⟨hshape.1, Requirement.clauses_combine readable_of_faithful cs hshape.2 h⟩
  | .attribute _ (.exprs es) =>
    exact ⟨hcut, Requirement.exprs_combine readable_of_faithful es hshape h⟩
  | .attribute _ (.tokens ts) => exact ⟨hcut.1, fun t ht => (hshape t ht).2, hcut.2.2⟩

theorem legibleForm_of_source {f : Form} (hshape : f.ShapedOf Token.Lexed) (hcut : CutForm f)
    (h : FaithfulForm f) : LegibleForm f := by
  match f with
  | .function _ _ cs =>
    exact Requirement.clauses_combine legible_of_faithful cs hshape.2 h
  | .attribute _ (.exprs es) =>
    exact Requirement.exprs_combine legible_of_faithful es hshape h
  | .attribute _ (.tokens ts) => exact ⟨hshape, h.1, hcut.2.1, h.2⟩

end Printer

/-! ### Reading back -/

section

variable {source : String} {line endLine : Nat} {ts : List (Located Token)}
  {fs : List (Located Form)}

/-- The forms of a source are cut again where they were. -/
theorem cutForms_of_source (ht : tokenize source line = .ok (ts, endLine))
    (h : parseForms ts = .ok fs) :
    ∀ f ∈ fs, CutForm f.node := by
  obtain ⟨parts, hcut, hparts⟩ := parseForms_iff.mp h
  have hdots : ∀ p ∈ parts, p.IsChain fun t u => DotsApart t.node u.node := by
    intro p hp
    have hpart := List.infix_of_mem_flatten hp
    rw [cutForms_flatten hcut] at hpart
    exact List.IsChain.infix (scan_scans ht).dots hpart
  have hclosed := openBrackets_of_cutForms hcut
  clear h hcut
  induction hparts with
  | nil => exact List.forall_mem_nil _
  | cons hf _ ih =>
      obtain ⟨hdot, hdots⟩ := List.forall_mem_cons.mp hdots
      obtain ⟨hclose, hclosed⟩ := List.forall_mem_cons.mp hclosed
      exact List.forall_mem_cons.mpr ⟨cutForm_of_formOf hf hdot hclose, ih hdots hclosed⟩

/-- The text of forms is read as the forms if their layout means them again and keeps their tokens
apart. -/
theorem parseDeclarations_of_readable (hr : ∀ f ∈ fs, ReadableForm f.node)
    (hl : ∀ f ∈ fs, LegibleForm f.node) :
    ∃ gs, parseDeclarations (prettyForms fs) = .ok gs ∧ eraseSpans gs = eraseSpans fs := by
  obtain ⟨us, endLine, hu, hnodes⟩ := Spaced.tokenize (spaced_forms hl) 1
  have hsame : SameResult (parseForms us) (parseForms (unplaced (forms fs).tokens)) :=
    parseForms_same (by rw [hnodes, map_node_unplaced])
  rw [tokens_forms, parseForms_layout hr] at hsame
  have hparse : parseDeclarations (prettyForms fs) = (parseForms us).mapError .grammar :=
    parseDeclarationsAt_eq hu
  rw [hparse]
  cases hus : parseForms us with
  | error x =>
      rw [hus] at hsame
      exact hsame.elim
  | ok gs =>
      rw [hus] at hsame
      refine ⟨gs, rfl, ?_⟩
      rw [eraseSpans_eq, eraseSpans_eq]
      exact Eq.trans hsame (erase_erase_forms fs)

/-- Printing undoes reading on modules, wherever nothing in the forms is run together. -/
theorem parseDeclarations_prettyForms (h : parseDeclarations source = .ok fs)
    (hf : ∀ f ∈ fs, FaithfulForm f.node) :
    ∃ gs, parseDeclarations (prettyForms fs) = .ok gs ∧ eraseSpans gs = eraseSpans fs := by
  obtain ⟨ts, endLine, ht, hts⟩ := parseForms_of_parseDeclarationsAt h
  have hshaped : ∀ f ∈ fs, f.node.ShapedOf Token.Lexed :=
    parseForms_shaped Token.Lexed.underscore hts (scan_scans ht).lexed
  have hcut := cutForms_of_source ht hts
  exact parseDeclarations_of_readable
    (fun f hmem => readableForm_of_source (hshaped f hmem) (hcut f hmem) (hf f hmem))
    (fun f hmem => legibleForm_of_source (hshaped f hmem) (hcut f hmem) (hf f hmem))

end

/-- A sum as an operand of a product and a range in an attribute that stays in tokens. -/
theorem parseDeclarations_prettyForms_product :
    ∃ fs gs, parseDeclarations "-type t() :: 1..2.\nf(X) -> (X + 1) * 1.5.\n" = .ok fs ∧
      prettyForms fs = "-type t ( ) :: 1 .. 2.\n\nf(X) ->\n    (X + 1) * 1.5.\n" ∧
      parseDeclarations (prettyForms fs) = .ok gs ∧ eraseSpans gs = eraseSpans fs := by
  have htokens : tokenize "-type t() :: 1..2.\nf(X) -> (X + 1) * 1.5.\n" 1 =
      .ok ([⟨.symbol .minus, ⟨0, 1, 1⟩⟩,
      ⟨.atom "type", ⟨1, 5, 1⟩⟩, ⟨.atom "t", ⟨6, 7, 1⟩⟩, ⟨.symbol .leftParen, ⟨7, 8, 1⟩⟩,
      ⟨.symbol .rightParen, ⟨8, 9, 1⟩⟩, ⟨.symbol .colonColon, ⟨10, 12, 1⟩⟩,
      ⟨.integer (.small 1), ⟨13, 14, 1⟩⟩, ⟨.symbol .dotDot, ⟨14, 16, 1⟩⟩,
      ⟨.integer (.small 2), ⟨16, 17, 1⟩⟩, ⟨.terminator, ⟨17, 18, 1⟩⟩, ⟨.atom "f", ⟨19, 20, 2⟩⟩,
      ⟨.symbol .leftParen, ⟨20, 21, 2⟩⟩, ⟨.var "X", ⟨21, 22, 2⟩⟩,
      ⟨.symbol .rightParen, ⟨22, 23, 2⟩⟩, ⟨.symbol .arrow, ⟨24, 26, 2⟩⟩,
      ⟨.symbol .leftParen, ⟨27, 28, 2⟩⟩, ⟨.var "X", ⟨28, 29, 2⟩⟩, ⟨.symbol .plus, ⟨30, 31, 2⟩⟩,
      ⟨.integer (.small 1), ⟨32, 33, 2⟩⟩, ⟨.symbol .rightParen, ⟨33, 34, 2⟩⟩,
      ⟨.symbol .star, ⟨35, 36, 2⟩⟩, ⟨.float ⟨false, 1023, 2251799813685248⟩, ⟨37, 40, 2⟩⟩,
      ⟨.terminator, ⟨40, 41, 2⟩⟩], 3) := by
    decide +kernel
  have hparse : parseDeclarations "-type t() :: 1..2.\nf(X) -> (X + 1) * 1.5.\n" = .ok
      [⟨.attribute ⟨"type", ⟨1, 5, 1⟩⟩ (.tokens [.atom "t", .symbol .leftParen, .symbol .rightParen,
          .symbol .colonColon, .integer (.small 1), .symbol .dotDot, .integer (.small 2)]),
          ⟨0, 17, 1⟩⟩,
        ⟨.function ⟨"f", ⟨19, 20, 2⟩⟩ 1 [⟨⟨[⟨.var "X", ⟨21, 22, 2⟩⟩], [],
          [⟨.binaryOp .mul
              ⟨.binaryOp .add ⟨.var "X", ⟨28, 29, 2⟩⟩ ⟨.integer (.small 1), ⟨32, 33, 2⟩⟩,
                ⟨28, 33, 2⟩⟩
              ⟨.float ⟨false, 1023, 2251799813685248⟩, ⟨37, 40, 2⟩⟩, ⟨28, 40, 2⟩⟩]⟩,
            ⟨19, 40, 2⟩⟩], ⟨19, 40, 2⟩⟩] := by
    refine (parseDeclarationsAt_eq htokens).trans ?_
    cbv
  have hrange : KeepApart [.atom "t", .symbol .leftParen, .symbol .rightParen, .symbol .colonColon,
      .integer (.small 1), .symbol .dotDot, .integer (.small 2)] := by
    simp [KeepApart, Token.joinsDot]
  have hx : faithful.expr ⟨.var "X", ⟨21, 22, 2⟩⟩ := ⟨rfl, ⟨True.intro, True.intro⟩, True.intro⟩
  have hsum : faithful.expr
      ⟨.binaryOp .add ⟨.var "X", ⟨28, 29, 2⟩⟩ ⟨.integer (.small 1), ⟨32, 33, 2⟩⟩, ⟨28, 33, 2⟩⟩ :=
    ⟨rfl, ⟨True.intro, True.intro⟩, hx, rfl, ⟨True.intro, True.intro⟩, True.intro⟩
  have hfloat : faithful.expr ⟨.float ⟨false, 1023, 2251799813685248⟩, ⟨37, 40, 2⟩⟩ :=
    ⟨rfl, ⟨True.intro, by decide, by decide +kernel⟩, True.intro⟩
  obtain ⟨gs, hgs, herase⟩ := parseDeclarations_prettyForms hparse
    (List.forall_mem_cons.mpr ⟨⟨by simp, hrange⟩,
      List.forall_mem_cons.mpr ⟨⟨⟨True.intro, ⟨hx, True.intro⟩, True.intro,
        ⟨rfl, ⟨True.intro, True.intro⟩, hsum, hfloat⟩, True.intro⟩, True.intro⟩,
        List.forall_mem_nil _⟩⟩)
  exact ⟨_, gs, hparse, by decide +kernel, hgs, herase⟩

/-- A macro in the place of a function loses its parentheses, and takes the arguments of the call
for its own. -/
theorem prettyForms_macro_callee :
    ∃ fs gs, parseDeclarations "f() -> (?F)()." = .ok fs ∧ prettyForms fs = "f() ->\n    ?F().\n" ∧
      parseDeclarations (prettyForms fs) = .ok gs ∧ eraseSpans gs ≠ eraseSpans fs := by
  have htokens : tokenize "f() -> (?F)()." 1 = .ok ([⟨.atom "f", ⟨0, 1, 1⟩⟩,
      ⟨.symbol .leftParen, ⟨1, 2, 1⟩⟩, ⟨.symbol .rightParen, ⟨2, 3, 1⟩⟩,
      ⟨.symbol .arrow, ⟨4, 6, 1⟩⟩, ⟨.symbol .leftParen, ⟨7, 8, 1⟩⟩, ⟨.symbol .question, ⟨8, 9, 1⟩⟩,
      ⟨.var "F", ⟨9, 10, 1⟩⟩, ⟨.symbol .rightParen, ⟨10, 11, 1⟩⟩, ⟨.symbol .leftParen, ⟨11, 12, 1⟩⟩,
      ⟨.symbol .rightParen, ⟨12, 13, 1⟩⟩, ⟨.terminator, ⟨13, 14, 1⟩⟩], 1) := by
    decide +kernel
  have hprinted : tokenize "f() ->\n    ?F().\n" 1 = .ok ([⟨.atom "f", ⟨0, 1, 1⟩⟩,
      ⟨.symbol .leftParen, ⟨1, 2, 1⟩⟩, ⟨.symbol .rightParen, ⟨2, 3, 1⟩⟩,
      ⟨.symbol .arrow, ⟨4, 6, 1⟩⟩, ⟨.symbol .question, ⟨11, 12, 2⟩⟩, ⟨.var "F", ⟨12, 13, 2⟩⟩,
      ⟨.symbol .leftParen, ⟨13, 14, 2⟩⟩, ⟨.symbol .rightParen, ⟨14, 15, 2⟩⟩,
      ⟨.terminator, ⟨15, 16, 2⟩⟩], 3) := by
    decide +kernel
  have htext : prettyForms [⟨.function ⟨"f", ⟨0, 1, 1⟩⟩ 0 [⟨⟨[], [], [⟨.call
      ⟨.macroUse "F" none, ⟨8, 10, 1⟩⟩ [], ⟨8, 13, 1⟩⟩]⟩, ⟨0, 13, 1⟩⟩], ⟨0, 13, 1⟩⟩] =
        "f() ->\n    ?F().\n" := by
    decide +kernel
  refine ⟨_, [⟨.function ⟨"f", ⟨0, 1, 1⟩⟩ 0 [⟨⟨[], [], [⟨.macroUse "F" (some []), ⟨11, 15, 2⟩⟩]⟩,
    ⟨0, 15, 1⟩⟩], ⟨0, 15, 1⟩⟩], ?_, htext, ?_, nofun⟩
  · refine (parseDeclarationsAt_eq htokens).trans ?_
    cbv
  · rw [htext]
    refine (parseDeclarationsAt_eq hprinted).trans ?_
    cbv

end ErlangFragment
