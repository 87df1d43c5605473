import ErlangFragment.Proofs.Printer.Clauses
import ErlangFragment.Proofs.Printer.Spacing
import ErlangFragment.Proofs.Tree.Requirement

/-! The tokens in the layout of a tree are told apart, if the numbers and names in the tree are
written as tokens of their own and no decimal number stands in front of the plain name of a
record. -/

namespace ErlangFragment

open Layout Lexer

namespace Printer

/-- Whether the layout ends in a number without a base. -/
def endsInDecimal : Expr → Bool
  | .integer n => n.isDecimal
  | .matchExpr _ ⟨e, _⟩ | .binaryOp _ _ ⟨e, _⟩ | .unaryOp _ ⟨e, _⟩ | .catchExpr ⟨e, _⟩
  | .remote _ ⟨e, _⟩
  | .funRef _ _ ⟨e, _⟩ => endsInDecimal e
  | _ => false

/-- A name that is a variable if it starts like one. -/
def IsMacroName (name : String) : Prop :=
  ∀ c cs, name.toList = c :: cs → isVariableStart c = true → ∀ d ∈ cs, isNameChar d = true

/-- A type of a segment that is written without a sign. -/
def IsSegmentType (t : SegmentType) : Prop :=
  ∀ n ∈ t.arg, 0 ≤ n ∧ n < IntegerLiteral.smallLimit

/-- What sets the tokens of a node apart. -/
def Legible : Expr → Prop
  | .integer n => n.Written
  | .float x => (x.isFinite = true ∧ x.negative = false) ∧ Binary64.read? x.text.toList = some x
  | .var v => IsVariableName v
  | .binary ss => ∀ s ∈ ss, ∀ t ∈ s.types, IsSegmentType t
  | .record (some b) name _ | .recordAccess b name _ =>
    isPlainAtom name = true → baseNeedsParens b.node = false → endsInDecimal b.node = false
  | .funExpr (some v) _ => IsVariableName v
  | .macroUse name _ => IsMacroName name
  | _ => True

/-- Every token of the tree is told apart from what stands behind it. -/
def legible : Requirement := ⟨Legible, fun _ => True⟩

/-- What may stand behind the layout of the expression. -/
structure Behind (e : Expr) (rest : List Char) : Prop where
  word : EndsWord rest
  number : endsInDecimal e = true → EndsDecimal rest

variable {level : Nat} {e : Expr} {l m : Layout} {ls : List Layout}

theorem behind_of_endsDecimal {rest : List Char} (h : EndsDecimal rest) : Behind e rest :=
  ⟨h.name, fun _ => h⟩

theorem stands_of_behind (h : Stands (Behind e) l) : Stands EndsDecimal l :=
  h.mono fun _ => behind_of_endsDecimal

/-! ### First tokens -/

theorem opens_parensIf {needed : Bool} (h : Opens l) : Opens (parensIf needed l) := by
  cases needed with
  | false => exact h
  | true =>
      exact ⟨.symbol .leftParen, l ++ symbol .rightParen,
        by simp [parensIf, parens, enclose, symbol], rfl⟩

/-- No layout of a tree begins with a token that a colon or a slash in front of it would take
along. -/
theorem opens_node : ∀ (e : Expr) (level : Nat), Opens (node level e)
  | .integer _, _ | .float _, _ | .char _, _ | .string _, _ | .atom _, _ | .var _, _
  | .tuple _, _ | .list _ _, _ | .binary _, _ | .map none _, _ | .record none _ _, _
  | .recordIndex _ _, _ | .block _, _ | .caseExpr _ _, _ | .ifExpr _, _ | .receiveExpr _ _, _
  | .tryExpr _ _ _ _, _ | .catchExpr _, _ | .listComp _ _, _ | .binaryComp _ _, _
  | .funExpr none _, _ | .funExpr (some _) _, _ | .funRef _ _ _, _ | .macroUse _ none, _
  | .macroUse _ (some _), _ => ⟨_, _, rfl, rfl⟩
  | .unaryOp op _, _ => by cases op <;> exact ⟨_, _, rfl, rfl⟩
  | .map (some ⟨b, _⟩) _, level => ((opens_parensIf (opens_node b level)).append _).append _
  | .record (some ⟨b, _⟩) _ _, level =>
      (((opens_parensIf (opens_node b level)).append _).append _).append _
  | .recordAccess ⟨b, _⟩ _ _, level =>
    ((((opens_parensIf (opens_node b level)).append _).append _).append _).append _
  | .matchExpr ⟨p, _⟩ _, level => ((opens_parensIf (opens_node p level)).append _).append _
  | .binaryOp _ ⟨l, _⟩ _, level => ((opens_parensIf (opens_node l level)).append _).append _
  | .call ⟨f, _⟩ _, level => (opens_parensIf (opens_node f level)).append _
  | .remote ⟨m, _⟩ _, level => ((opens_parensIf (opens_node m level)).append _).append _

theorem opens_expr (e : Located Expr) (level : Nat) : Opens (expr level e) := by
  obtain ⟨e, s⟩ := e
  exact opens_node e level

theorem opens_bare (e : Located Expr) (level : Nat) : Opens (bare level e) := by
  rw [bare_eq]
  exact opens_parensIf (opens_expr e level)

theorem opens_exprs (es : List (Located Expr)) (level : Nat) : ∀ l ∈ exprs level es, Opens l := by
  induction es with
  | nil => exact nofun
  | cons e es ih => exact List.forall_mem_cons.mpr ⟨opens_expr e level, ih⟩

/-! ### Words and brackets -/

theorem stands_behind (h : Stands EndsWord l) : Stands (Behind e) l :=
  h.mono fun _ hrest => hrest.word

theorem stands_atom (name : String) : Stands EndsWord (atom name) :=
  stands_token fun _ => standsBefore_atom name

theorem stands_var {name : String} (h : IsVariableName name) : Stands EndsWord (var name) :=
  stands_token fun _ => standsBefore_var h

theorem trails_braces (h : Stands EndsDecimal l) :
    Trails Anything (enclose .leftBrace .rightBrace l) :=
  trails_enclose (Symbol.lone_of_mem (by simp)) (Symbol.lone_of_mem (by simp)) (by decide)
    (by decide) h

theorem trails_brackets (h : Stands EndsDecimal l) :
    Trails Anything (enclose .leftBracket .rightBracket l) :=
  trails_enclose (Symbol.lone_of_mem (by simp)) (Symbol.lone_of_mem (by simp)) (by decide)
    (by decide) h

theorem trails_angles (h : Stands EndsDecimal l) :
    Trails Anything (enclose .lessLess .greaterGreater l) :=
  trails_enclose (Symbol.lone_of_mem (by simp)) (Symbol.lone_of_mem (by simp)) (by decide)
    (by decide) h

/-- Two layouts with a token between them that has blanks around it. -/
theorem stands_between {t : Token} (hl : Stands EndsDecimal l)
    (ht : ∀ rest, t.StandsBefore (' ' :: rest)) (hm : Stands EndsDecimal m) :
    Stands EndsDecimal (l ++ spaced t ++ m) := by
  rw [List.append_assoc]
  exact hl.append (trails_spaced ht hm)

theorem keyword_before_blank (k : Keyword) (rest : List Char) :
    (Token.keyword k).StandsBefore (' ' :: rest) :=
  standsBefore_keyword k ((avoids_cons _ _ _).mpr (by decide))

theorem binaryOp_before_blank (op : BinaryOp) (rest : List Char) :
    op.token.StandsBefore (' ' :: rest) := by
  cases op <;> first
    | exact keyword_before_blank _ rest
    | exact Symbol.standsBefore_blank (by decide) rest

theorem unaryOp_before_blank (op : UnaryOp) (rest : List Char) :
    op.token.StandsBefore (' ' :: rest) := by
  cases op <;> first
    | exact keyword_before_blank _ rest
    | exact Symbol.standsBefore_blank (by decide) rest

theorem mapOp_before_blank (op : MapOp) (rest : List Char) :
    (mapOp op).StandsBefore (' ' :: rest) := by
  cases op <;> exact Symbol.standsBefore_blank (by decide) rest

theorem stands_afterBlank {P : List Char → Prop} {t : Token}
    (ht : ∀ rest, t.StandsBefore (' ' :: rest)) (hm : Stands P m) :
    Stands P ([.token t, .blank] ++ m) :=
  fun rest hrest => ⟨ht _, hm rest hrest⟩

theorem trails_endLine (level : Nat) : Trails EndsWord (endLine level) :=
  (stands_keyword .end_).newline level

/-! ### Records -/

/-- The hash and the fields of a map or a record, behind anything. -/
theorem trails_mapBraces (h : Stands EndsDecimal l) :
    Trails Anything (symbol .hash ++ enclose .leftBrace .rightBrace l) := by
  refine ⟨(trails_braces h).stands.afterSymbol (Symbol.lone_of_mem (by simp)),
    fun rest _ => ⟨?_, ?_, ?_⟩⟩
  · exact (avoids_cons _ _ _).mpr (by decide)
  · intro d ds heq
    cases heq
  · intro d ds heq
    obtain ⟨rfl, -⟩ := List.cons.inj (List.cons.inj heq).2
    decide

/-- What starts an atom. -/
def StartsAtom (c : Char) : Prop := c.isLower = true ∨ c = '\''

/-- No atom begins with another character than a small letter or a quote. -/
theorem StartsAtom.ne {c d : Char} (hc : StartsAtom c) (hd : d.isLower = false)
    (hquote : d ≠ '\'') : c ≠ d := by
  rintro rfl
  rcases hc with hc | rfl
  · rw [hc] at hd
    cases hd
  · exact hquote rfl

theorem StartsAtom.not_ends {c : Char} (hc : StartsAtom c) (cs : List Char) :
    endsForm (c :: cs) = false := by
  rcases hc with hc | rfl
  · exact endsForm_eq_false (by rw [isLower_iff] at hc; omega) cs
  · rfl

/-- The text of an atom begins as atoms do. -/
theorem atom_chars (name : String) (m : Layout) (rest : List Char) :
    ∃ c cs, (atom name ++ m).chars ++ rest = c :: cs ∧ StartsAtom c := by
  by_cases hplain : isPlainAtom name = true
  · obtain ⟨c, cs, hname, hc, -⟩ := isWord_of_isPlainAtom hplain
    exact ⟨c, cs ++ (m.chars ++ rest),
      by simp [atom, Piece.text, Token.text, atomText, hplain, hname], .inl hc⟩
  · refine ⟨'\'', Quoted.encode (some '\'') name.toList ++ '\'' :: (m.chars ++ rest), ?_, .inr rfl⟩
    simp [atom, Piece.text, Token.text, atomText, hplain, Quoted.enclose]

/-- Behind a number a hash with a quoted name is not taken for the hash of a base. -/
theorem endsDecimal_hash_quoted {name : String} (hname : isPlainAtom name = false) (m : Layout)
    (rest : List Char) :
    EndsDecimal ((symbol .hash ++ (atom name ++ m)).chars ++ rest) := by
  have hchars : (symbol .hash ++ (atom name ++ m)).chars ++ rest =
      '#' :: '\'' :: (Quoted.encode (some '\'') name.toList ++ '\'' :: (m.chars ++ rest)) := by
    simp [symbol, atom, Piece.text, Token.text, atomText, hname, Quoted.enclose, Symbol.text]
  rw [hchars]
  refine ⟨(avoids_cons _ _ _).mpr (by decide), fun d ds heq => ?_, fun d ds heq => ?_⟩
  · cases heq
  · obtain ⟨rfl, -⟩ := List.cons.inj (List.cons.inj heq).2
    decide

/-- A dot in front of an atom stays a dot. -/
theorem dot_before_atom (name : String) (m : Layout) (rest : List Char) :
    (Token.symbol .dot).StandsBefore ((atom name ++ m).chars ++ rest) := by
  obtain ⟨c, cs, hchars, hc⟩ := atom_chars name m rest
  rw [hchars]
  refine standsBefore_symbol ((avoids_cons _ _ _).mpr
    (Bool.eq_false_iff.mpr fun hext => ?_)) fun _ =>
    hc.not_ends cs
  have hdot : c = '.' := by simpa [Symbol.extendedBy, Symbol.all, Symbol.text] using hext
  exact hc.ne (by decide) (by decide) hdot

/-- A minus in front of an atom stays a minus. -/
theorem minus_before_atom (name : String) (m : Layout) (rest : List Char) :
    (Token.symbol .minus).StandsBefore ((atom name ++ m).chars ++ rest) := by
  obtain ⟨c, cs, hchars, hc⟩ := atom_chars name m rest
  rw [hchars]
  refine standsBefore_symbol ((avoids_cons _ _ _).mpr
    (Bool.eq_false_iff.mpr fun hext => ?_)) (by simp)
  have hmark : c = '-' ∨ c = '>' := by simpa [Symbol.extendedBy, Symbol.all, Symbol.text] using hext
  rcases hmark with hmark | hmark
  · exact hc.ne (by decide) (by decide) hmark
  · exact hc.ne (by decide) (by decide) hmark

theorem stands_dotField (name : String) : Stands EndsWord (symbol .dot ++ atom name) := by
  intro rest hrest
  have hdot := dot_before_atom name [] rest
  rw [List.append_nil] at hdot
  exact ⟨hdot, stands_atom name rest hrest⟩

/-- A hash, the name of a record and what stands behind the name. -/
theorem stands_recordName (name : String) {P : List Char → Prop} (hm : Stands P m)
    (hword : ∀ rest, P rest → EndsWord (m.chars ++ rest)) :
    Stands P (symbol .hash ++ atom name ++ m) := by
  rw [List.append_assoc]
  refine Stands.afterSymbol (fun rest hrest => ?_) (Symbol.lone_of_mem (by simp))
  rw [spaced_append]
  exact ⟨stands_atom name _ (hword rest hrest), hm rest hrest⟩

/-- The name of a record and its fields. -/
theorem stands_recordFields (name : String) (h : Stands EndsDecimal l) :
    Stands Anything (symbol .hash ++ atom name ++ enclose .leftBrace .rightBrace l) :=
  stands_recordName name (trails_braces h).stands fun rest hrest =>
    endsWord_of_endsDecimal ((trails_braces h).ends rest hrest)

theorem stands_recordField (name field : String) :
    Stands EndsWord (symbol .hash ++ atom name ++ (symbol .dot ++ atom field)) :=
  stands_recordName name (stands_dotField field) fun _ _ => (avoids_cons _ _ _).mpr (by decide)

theorem stands_fieldName (name : String) : Stands EndsWord (fieldName name) := by
  unfold fieldName
  split
  · next h =>
    subst h
    exact stands_var ⟨'_', [], rfl, rfl, nofun⟩
  · exact stands_atom name

theorem stands_macroName {name : String} (h : IsMacroName name) :
    Stands EndsWord (macroName name) := by
  unfold macroName
  split
  · next c cs hname =>
    split
    · next hc => exact stands_var ⟨c, cs, hname, hc, h c cs hname hc⟩
    · exact stands_atom name
  · exact stands_atom name

/-! ### Segments -/

/-- A minus may stand directly in front of the layout. -/
def BeginsWithAtom (l : Layout) : Prop := ∃ name m, l = atom name ++ m

theorem beginsWithAtom_segmentType (t : SegmentType) : BeginsWithAtom (segmentType t) :=
  ⟨t.name, _, rfl⟩

theorem stands_segmentType {t : SegmentType} (h : IsSegmentType t) :
    Stands EndsDecimal (segmentType t) := by
  obtain ⟨name, arg⟩ := t
  cases arg with
  | none => exact (stands_atom name).word.append trails_nil
  | some n =>
      obtain ⟨n, rfl⟩ := Int.eq_ofNat_of_zero_le (h n rfl).1
      have hn : n < IntegerLiteral.smallLimit := by exact_mod_cast (h n rfl).2
      have hnumber : Stands EndsDecimal [.token (.integer (.small n))] :=
        stands_token fun _ hrest => standsBefore_small hn hrest
      have hopens : Opens [.token (.integer (.small n))] := ⟨_, [], rfl, rfl⟩
      exact (stands_atom name).word.append (hnumber.afterMark hopens (.inl rfl))

theorem trails_segmentTypes {ts : List SegmentType} (h : ∀ t ∈ ts, IsSegmentType t) :
    Trails EndsDecimal (segmentTypes ts) := by
  cases ts with
  | nil => exact trails_nil
  | cons t ts =>
      have hjoin : Stands EndsDecimal (join (symbol .minus) ((t :: ts).map segmentType)) := by
        refine stands_join_of (R := BeginsWithAtom) ?_ ?_ ?_
        · rintro l m ⟨name, k, rfl⟩
          exact ⟨name, k ++ m, List.append_assoc _ _ _⟩
        · rintro m ⟨name, k, rfl⟩ hm
          refine ⟨fun rest hrest => ⟨minus_before_atom name k rest, hm rest hrest⟩,
            fun rest _ => ?_⟩
          exact Symbol.endsDecimal_text (s := .minus) (by decide) _
        · intro l hl
          obtain ⟨u, hu, rfl⟩ := List.mem_map.mp hl
          exact ⟨beginsWithAtom_segmentType u, stands_segmentType (h u hu)⟩
      have hopens : Opens (join (symbol .minus) ((t :: ts).map segmentType)) := by
        cases ts <;> exact ⟨.atom t.name, _, rfl, rfl⟩
      exact hjoin.afterMark hopens (.inr rfl)

/-! ### Clauses -/

/-- The arrow and the body of a clause. -/
theorem trails_arrowBody (level : Nat) (h : ∀ l ∈ ls, Stands EndsDecimal l) :
    Trails EndsDecimal (arrowBody level ls) := by
  have hlines := (trails_lines (level + 1) (.inl rfl) h).stands
  exact (hlines.afterSymbol (s := .arrow) (Symbol.lone_of_mem (by simp))).blank

theorem stands_guardSequence (h : ∀ l ∈ ls, Stands EndsDecimal l) :
    Stands EndsDecimal (guardSequence ls) := by
  refine stands_join (fun m hm => ?_) h
  rw [List.append_assoc]
  exact hm.blank.stands.trailing (Symbol.lone_of_mem (by simp)) (by decide)

/-- The guards of a clause and the word in front of them, if it has any. -/
def whenGuards : List Layout → Layout
  | [] => []
  | gs => spaced (.keyword .when) ++ guardSequence gs

/-- The guards of a clause, if there are any, and what stands behind them. -/
theorem trails_whenGuards (h : ∀ l ∈ ls, Stands EndsDecimal l) (hm : Trails EndsDecimal m) :
    Trails EndsDecimal (whenGuards ls ++ m) := by
  cases ls with
  | nil => exact hm
  | cons l ls =>
      change Trails EndsDecimal (spaced (.keyword .when) ++ guardSequence (l :: ls) ++ m)
      rw [List.append_assoc]
      exact trails_spaced (keyword_before_blank .when) ((stands_guardSequence h).append hm)

/-- The parts of a clause stand where they are laid out. -/
structure ClauseStands (patterns guards body : List Layout) : Prop where
  opens : ∀ l ∈ patterns, Opens l
  patterns : ∀ l ∈ patterns, Stands EndsDecimal l
  guards : ∀ l ∈ guards, Stands EndsDecimal l
  body : ∀ l ∈ body, Stands EndsDecimal l

variable {ps gs : List Layout}

theorem ClauseStands.rest (h : ClauseStands ps gs ls) (level : Nat) :
    Trails EndsDecimal (whenGuards gs ++ arrowBody level ls) :=
  trails_whenGuards h.guards (trails_arrowBody level h.body)

theorem ClauseStands.args (h : ClauseStands ps gs ls) (level : Nat) :
    Trails EndsDecimal (clauseLayout .args level ps gs ls) := by
  have hparens : Trails EndsDecimal (parens (commas ps)) :=
    (trails_parens (stands_commas h.patterns)).mono fun _ _ => True.intro
  have heq : clauseLayout .args level ps gs ls =
      parens (commas ps) ++ (whenGuards gs ++ arrowBody level ls) := by
    cases gs <;> simp [clauseLayout, whenGuards]
  rw [heq]
  exact hparens.append (h.rest level)

/-- The tokens of a clause are told apart, with any head. -/
theorem ClauseStands.stands (h : ClauseStands ps gs ls) (head : Head) (level : Nat) :
    Stands EndsDecimal (clauseLayout head level ps gs ls) := by
  cases head with
  | args => exact (h.args level).stands
  | patterns =>
      have heq : clauseLayout .patterns level ps gs ls =
          commas ps ++ (whenGuards gs ++ arrowBody level ls) := by
        cases gs <;> simp [clauseLayout, whenGuards]
      rw [heq]
      exact (stands_commas h.patterns).append (h.rest level)
  | catchPatterns =>
      have heq : clauseLayout .catchPatterns level ps gs ls =
          join (symbol .colon) ps ++ (whenGuards gs ++ arrowBody level ls) := by
        cases gs <;> simp [clauseLayout, whenGuards]
      rw [heq]
      refine Stands.append ?_ (h.rest level)
      exact stands_join_of (R := Opens) (fun _ m hl => hl.append m)
        (fun _ hopens hm => hm.afterMark hopens (.inl rfl)) fun l hl =>
          ⟨h.opens l hl, h.patterns l hl⟩
  | guardsOnly => exact (stands_guardSequence h.guards).append (trails_arrowBody level h.body)

theorem trails_section (level : Nat) (word : Keyword) (h : Trails EndsDecimal l) :
    Trails EndsDecimal (section_ level word l) := by
  cases l with
  | nil => exact trails_nil
  | cons p l => exact ((stands_keyword word).word.append h).newline level

/-- Clauses on lines of their own. -/
theorem stands_semicolonLines (level : Nat) (h : ∀ l ∈ ls, Stands EndsDecimal l) :
    Stands EndsDecimal (join (symbol .semicolon ++ [.newline level]) ls) := by
  refine stands_join (fun m hm => ?_) h
  rw [List.append_assoc]
  exact (hm.newline _).stands.trailing (Symbol.lone_of_mem (by simp)) (by decide)

theorem stands_funLayout (level : Nat) {name : Layout}
    (h : ∀ l ∈ ls, Stands EndsDecimal (name ++ l)) :
    Stands EndsWord (funLayout level name ls) := by
  have hend := trails_endLine level
  cases ls with
  | nil => exact (stands_keyword .fun_).word.append hend
  | cons l ls =>
      have hclauses : Stands EndsDecimal
          (join (symbol .semicolon ++ [.newline (level + 1)]) ((l :: ls).map (name ++ ·))) :=
        stands_semicolonLines (level + 1) (List.forall_mem_map.mpr h)
      have heq : funLayout level name (l :: ls) = keyword .fun_ ++ (.blank ::
          (join (symbol .semicolon ++ [.newline (level + 1)]) ((l :: ls).map (name ++ ·)) ++
            endLine level)) := by
        simp [funLayout]
      rw [heq]
      exact (stands_keyword .fun_).word.append (hclauses.append hend).blank

/-! ### Trees -/

/-- In parentheses anything may stand behind, and without them what may stand behind the layout
itself. -/
theorem stands_parensIf_of {P : List Char → Prop} {needed : Bool} (h : Stands P l)
    (hdec : Stands EndsDecimal l) :
    Stands P (parensIf needed l) := by
  cases needed with
  | false => exact h
  | true => exact (trails_parens hdec).anywhere

theorem stands_base {b : Located Expr} (h : Stands (Behind b.node) (expr level b)) :
    Stands EndsDecimal (base level b) := by
  rw [base_eq]
  exact stands_parensIf (stands_of_behind h)

theorem stands_bare {b : Located Expr} (h : Stands (Behind b.node) (expr level b)) :
    Stands EndsDecimal (bare level b) := by
  rw [bare_eq]
  exact stands_parensIf (stands_of_behind h)

/-- The base of a record, the hash and the name. The base is no decimal number, or the name is
quoted. -/
theorem stands_behindBase {P : List Char → Prop} {b : Located Expr} {name : String}
    (hdecimal : isPlainAtom name = true → baseNeedsParens b.node = false →
      endsInDecimal b.node = false)
    (h : Stands (Behind b.node) (expr level b)) (hm : Stands P (symbol .hash ++ (atom name ++ m))) :
    Stands P (base level b ++ (symbol .hash ++ (atom name ++ m))) := by
  intro rest hrest
  rw [spaced_append]
  refine ⟨?_, hm rest hrest⟩
  rw [base_eq]
  rcases hparens : baseNeedsParens b.node with _ | _
  · refine h _ ⟨(avoids_cons _ _ _).mpr (by decide), fun hnumber => ?_⟩
    rcases hplain : isPlainAtom name with _ | _
    · exact endsDecimal_hash_quoted hplain _ _
    · rw [hdecimal hplain hparens] at hnumber
      cases hnumber
  · exact (trails_parens (stands_of_behind h)).stands _ True.intro

/-- What may stand behind a node may stand behind the last part of it. -/
theorem Behind.last {f : Expr} {rest : List Char} (h : Behind e rest)
    (heq : endsInDecimal f = endsInDecimal e) :
    Behind f rest := ⟨h.word, fun hf => h.number (heq ▸ hf)⟩

/-- An operator between its operands. -/
theorem stands_operator {f : Located Expr} {needed : Bool} (hl : Stands EndsDecimal l) {t : Token}
    (ht : ∀ rest, t.StandsBefore (' ' :: rest)) (hf : Stands (Behind f.node) (expr level f))
    (heq : endsInDecimal f.node = endsInDecimal e) :
    Stands (Behind e) (l ++ spaced t ++ parensIf needed (expr level f)) := by
  rw [List.append_assoc]
  have hlast : Stands (Behind e) (expr level f) := hf.mono fun _ hrest => hrest.last heq
  exact hl.append (trails_spaced ht (stands_parensIf_of hlast (stands_of_behind hf)))

theorem stands_remote {x f : Located Expr} (hx : Stands (Behind x.node) (expr level x))
    (hf : Stands (Behind f.node) (expr level f)) :
    Stands (Behind (.remote x f)) (node level (.remote x f)) := by
  have hlast : Stands (Behind (.remote x f)) (expr level f) :=
    hf.mono fun _ hrest => hrest.last (by cases f; rfl)
  have hbare : Stands (Behind (.remote x f)) (bare level f) := by
    rw [bare_eq]
    exact stands_parensIf_of hlast (stands_of_behind hf)
  rw [node_remote, List.append_assoc]
  exact (stands_base hx).append (hbare.afterMark (opens_bare f level) (.inl rfl))

theorem stands_afterWord {P : List Char → Prop} (k : Keyword) (h : Trails P l) :
    Stands P (keyword k ++ l) :=
  (stands_keyword k).word.append h

theorem stands_clauses (head : Head) {cs : List (Located Clause)}
    (h : ∀ c ∈ cs, ClauseStands (exprs level c.node.patterns) (guards level c.node.guards)
      (exprs (level + 1) c.node.body)) : ∀ l ∈ clauses head level cs, Stands EndsDecimal l := by
  rw [clauses_eq_map]
  intro l hl
  obtain ⟨c, hc, rfl⟩ := List.mem_map.mp hl
  exact (h c hc).stands head level

theorem trails_clauses (head : Head) {cs : List (Located Clause)}
    (h : ∀ c ∈ cs, ClauseStands (exprs level c.node.patterns) (guards level c.node.guards)
      (exprs (level + 1) c.node.body)) :
    Trails EndsDecimal (lines level .semicolon (clauses head level cs)) :=
  trails_lines level (.inr rfl) (stands_clauses head h)

theorem stands_anyFun {name : Layout} (hname : name = [] ∨ Stands EndsWord name)
    {cs : List (Located Clause)} (h : ∀ c ∈ cs,
      ClauseStands (exprs (level + 1) c.node.patterns) (guards (level + 1) c.node.guards)
      (exprs (level + 1 + 1) c.node.body)) :
    Stands EndsWord (funLayout level name (clauses .args (level + 1) cs)) := by
  refine stands_funLayout level fun l hl => ?_
  rw [clauses_eq_map] at hl
  obtain ⟨c, hc, rfl⟩ := List.mem_map.mp hl
  have hclause := (h c hc).args (level + 1)
  rcases hname with rfl | hname
  · exact hclause.stands
  · exact hname.word.append hclause

/-- A reference to a function, with a module or without. -/
theorem stands_funRef {m : Option (Located Expr)} {f a : Located Expr}
    (hm : ∀ x ∈ m, Stands (Behind x.node) (expr level x))
    (hf : Stands (Behind f.node) (expr level f))
    (ha : Stands (Behind a.node) (expr level a)) :
    Stands (Behind (.funRef m f a)) (node level (.funRef m f a)) := by
  have harity : Stands (Behind (.funRef m f a)) (expr level a) :=
    ha.mono fun _ hrest => hrest.last (by cases a; rfl)
  have hlocal : Stands (Behind (.funRef m f a)) (expr level f ++ (symbol .slash ++ expr level a)) :=
    (stands_of_behind hf).append (harity.afterMark (opens_expr a level) (.inr rfl))
  have hopens : Opens (expr level f ++ (symbol .slash ++ expr level a)) :=
    (opens_expr f level).append _
  rw [node_funRef]
  simp only [List.append_assoc]
  refine stands_afterWord .fun_ (Stands.blank ?_)
  cases m with
  | none => exact hlocal
  | some m =>
      rw [funModule_some, List.append_assoc]
      exact (stands_of_behind (hm m rfl)).append (hlocal.afterMark hopens (.inl rfl))

-- A node stands where words end. That it may need more, a text that ends a number, is known from
-- the part that its layout ends with.
mutual

/-- The tokens of a node are told apart in front of what may stand behind the node. -/
theorem stands_node : ∀ (e : Expr) (level : Nat), legible.ofNode e → legible.parts e →
    Stands (Behind e) (node level e)
  | .integer n, _, hn, _ =>
    stands_token fun _ hrest => standsBefore_integer hn hrest.word fun hdec => hrest.number hdec
  | .float x, _, hx, _ =>
      stands_token fun _ hrest => standsBefore_float hx.1.1 hx.1.2 hx.2 hrest.word
  | .char c, _, _, _ => stands_token fun rest _ => standsBefore_char c rest
  | .string s, _, _, _ => stands_token fun rest _ => standsBefore_string s rest
  | .atom a, _, _, _ => stands_behind (stands_atom a)
  | .var v, _, hv, _ => stands_behind (stands_var hv)
  | .tuple es, level, _, h => (trails_braces (stands_commas (stands_exprs es level h))).anywhere
  | .list es tail, level, _, h =>
    (trails_brackets ((stands_commas (stands_exprs es level h.1)).append
      (trails_listTail tail level h.2))).anywhere
  | .binary ss, level, hnode, h =>
    (trails_angles (stands_commas (stands_segments ss level hnode h))).anywhere
  | .map none fs, level, _, h =>
    (trails_mapBraces (stands_commas (stands_mapFields fs level h.2))).anywhere
  | .map (some b) fs, level, _, h => by
    have hbase := stands_base (stands_expr b level h.1)
    rw [node_map, List.append_assoc]
    exact (hbase.append (trails_mapBraces (stands_commas (stands_mapFields fs level h.2)))).anywhere
  | .record none name fs, level, _, h =>
    (stands_recordFields name (stands_commas (stands_recordValues fs level h.2))).anywhere
  | .record (some b) name fs, level, hnode, h => by
    have hfields := stands_recordFields name (stands_commas (stands_recordValues fs level h.2))
    rw [List.append_assoc] at hfields
    rw [node_record]
    simp only [List.append_assoc]
    exact (stands_behindBase hnode (stands_expr b level h.1) hfields).anywhere
  | .recordIndex name field, _, _, _ => by
    have hfield := stands_recordField name field
    rw [node_recordIndex, List.append_assoc]
    exact stands_behind hfield
  | .recordAccess b name field, level, hnode, h => by
    have hfield := stands_recordField name field
    rw [List.append_assoc] at hfield
    rw [node_recordAccess]
    simp only [List.append_assoc]
    exact stands_behindBase hnode (stands_expr b level h) (stands_behind hfield)
  | .matchExpr p v, level, _, h =>
    stands_operator (stands_parensIf (stands_of_behind (stands_expr p level h.1)))
      (Symbol.standsBefore_blank (s := .equal) (by decide)) (stands_expr v level h.2)
      (by cases v; rfl)
  | .binaryOp op l r, level, _, h =>
    stands_operator (stands_parensIf (stands_of_behind (stands_expr l level h.1)))
      (binaryOp_before_blank op) (stands_expr r level h.2) (by cases r; rfl)
  | .unaryOp op e, level, _, h => by
    have he := stands_expr e level h
    have hlast : Stands (Behind (.unaryOp op e)) (expr level e) :=
      he.mono fun _ hrest => hrest.last (by cases e; rfl)
    exact stands_afterBlank (unaryOp_before_blank op)
      (stands_parensIf_of hlast (stands_of_behind he))
  | .call f args, level, _, h => by
    have hargs := trails_parens (stands_commas (stands_exprs args level h.2))
    exact ((stands_base (stands_callee f level h.1)).append hargs).anywhere
  | .remote m f, level, _, h => stands_remote (stands_expr m level h.1) (stands_expr f level h.2)
  | .block es, level, _, h => by
    have hbody := trails_lines (level + 1) (.inl rfl) (stands_exprs es (level + 1) h)
    rw [node_block, List.append_assoc]
    exact stands_behind (stands_afterWord .begin (hbody.append (trails_endLine level)))
  | .caseExpr e cs, level, _, h => by
    have hclauses :=
      (trails_clauses .patterns (clauses_stand cs (level + 1) h.2)).append (trails_endLine level)
    have hsubject := stands_of_behind (stands_expr e level h.1)
    rw [node_caseExpr]
    simp only [List.append_assoc]
    exact stands_behind (stands_afterWord .case
      (hsubject.append (stands_afterWord .of hclauses).blank).blank)
  | .ifExpr cs, level, _, h => by
    have hclauses := trails_clauses .guardsOnly (clauses_stand cs (level + 1) h)
    rw [node_ifExpr, List.append_assoc]
    exact stands_behind (stands_afterWord .if_ (hclauses.append (trails_endLine level)))
  | .receiveExpr cs a, level, _, h => by
    have hclauses := trails_clauses .patterns (clauses_stand cs (level + 1) h.1)
    have hafter := trails_section level .after (trails_after a level h.2)
    rw [node_receiveExpr, List.append_assoc, List.append_assoc]
    exact stands_behind (stands_afterWord .receive
      (hclauses.append (hafter.append (trails_endLine level))))
  | .tryExpr es os cs as, level, _, h => by
    have hbody := trails_lines (level + 1) (.inl rfl) (stands_exprs es (level + 1) h.1)
    have hof := trails_section level .of
        (trails_clauses .patterns (clauses_stand os (level + 1) h.2.1))
    have hcatch :=
      trails_section level .catch_ (trails_clauses .catchPatterns
        (clauses_stand cs (level + 1) h.2.2.1))
    have hafter :=
      trails_section level .after (trails_lines (level + 1) (.inl rfl)
        (stands_exprs as (level + 1) h.2.2.2))
    rw [node_tryExpr]
    simp only [List.append_assoc]
    exact stands_behind (stands_afterWord .try_
      (hbody.append (hof.append (hcatch.append (hafter.append (trails_endLine level))))))
  | .catchExpr e, level, _, h => by
    have hlast : Stands (Behind (.catchExpr e)) (expr level e) :=
      (stands_expr e level h).mono fun _ hrest => hrest.last (by cases e; rfl)
    exact stands_afterWord .catch_ hlast.blank
  | .listComp e qs, level, _, h =>
    (trails_brackets (stands_between (stands_of_behind (stands_expr e level h.1))
      (fun rest => Symbol.standsBefore_blank (by decide) rest)
      (stands_commas (stands_qualifiers qs level h.2)))).anywhere
  | .binaryComp e qs, level, _, h =>
    (trails_angles (stands_between (stands_bare (stands_expr e level h.1))
      (fun rest => Symbol.standsBefore_blank (by decide) rest)
      (stands_commas (stands_qualifiers qs level h.2)))).anywhere
  | .funExpr none cs, level, _, h =>
    stands_behind (stands_anyFun (.inl rfl) (clauses_stand cs (level + 1) h))
  | .funExpr (some _) cs, level, hv, h =>
    stands_behind (stands_anyFun (.inr (stands_var hv)) (clauses_stand cs (level + 1) h))
  | .funRef m f a, level, _, h =>
    stands_funRef (stands_optional m level h.1) (stands_expr f level h.2.1)
      (stands_expr a level h.2.2)
  | .macroUse _ none, _, hname, _ =>
    stands_behind ((stands_macroName hname).afterSymbol (Symbol.lone_of_mem (by simp)))
  | .macroUse name (some args), level, hname, h => by
    have hargs := trails_parens (stands_commas (stands_exprs args level h))
    have hcall := (stands_macroName hname).word.append hargs
    rw [node_macroCall, List.append_assoc]
    exact (hcall.afterSymbol (Symbol.lone_of_mem (by simp))).anywhere

theorem stands_expr : ∀ (e : Located Expr) (level : Nat), legible.expr e →
    Stands (Behind e.node) (expr level e)
  | ⟨e, _⟩, level, ⟨_, hnode, hparts⟩ => stands_node e level hnode hparts

theorem stands_callee : ∀ (e : Located Expr) (level : Nat), legible.callee e →
    Stands (Behind e.node) (expr level e)
  | ⟨e, _⟩, level, ⟨hnode, hparts⟩ => stands_node e level hnode hparts

theorem stands_exprs : ∀ (es : List (Located Expr)) (level : Nat), legible.exprs es →
    ∀ l ∈ exprs level es, Stands EndsDecimal l
  | [], _, _ => nofun
  | e :: es, level, h =>
    List.forall_mem_cons.mpr ⟨stands_of_behind (stands_expr e level h.1), stands_exprs es level h.2⟩

theorem stands_optional : ∀ (e : Option (Located Expr)) (level : Nat), legible.optional e →
    ∀ x ∈ e, Stands (Behind x.node) (expr level x)
  | none, _, _ => nofun
  | some e, level, h => fun
    | _, rfl => stands_expr e level h

theorem trails_listTail : ∀ (e : Option (Located Expr)) (level : Nat), legible.optional e →
    Trails EndsDecimal (listTail level e)
  | none, _, _ => trails_nil
  | some e, level, h => trails_spaced_symbol (by decide) (stands_of_behind (stands_expr e level h))

theorem trails_segmentSize : ∀ (e : Option (Located Expr)) (level : Nat), legible.optional e →
    Trails EndsDecimal (segmentSize level e)
  | none, _, _ => trails_nil
  | some e, level, h =>
      (stands_bare (stands_expr e level h)).afterMark (opens_bare e level) (.inl rfl)

theorem stands_segments : ∀ (ss : List Segment) (level : Nat),
    (∀ s ∈ ss, ∀ t ∈ s.types, IsSegmentType t) → legible.segments ss →
    ∀ l ∈ segments level ss, Stands EndsDecimal l
  | [], _, _, _ => nofun
  | ⟨value, size, types⟩ :: ss, level, htypes, h => by
    obtain ⟨hhead, hss⟩ := List.forall_mem_cons.mp htypes
    refine List.forall_mem_cons.mpr ⟨?_, stands_segments ss level hss h.2⟩
    rw [List.append_assoc]
    exact (stands_bare (stands_expr value level h.1.1)).append
      ((trails_segmentSize size level h.1.2).append (trails_segmentTypes hhead))

theorem stands_mapFields : ∀ (fs : List MapField) (level : Nat), legible.mapFields fs →
    ∀ l ∈ mapFields level fs, Stands EndsDecimal l
  | [], _, _ => nofun
  | ⟨key, op, value⟩ :: fs, level, h =>
    List.forall_mem_cons.mpr ⟨stands_between (stands_of_behind (stands_expr key level h.1.1))
      (mapOp_before_blank op) (stands_of_behind (stands_expr value level h.1.2)),
      stands_mapFields fs level h.2⟩

theorem stands_recordValues : ∀ (fs : List RecordField) (level : Nat), legible.recordFields fs →
    ∀ l ∈ recordFields level fs, Stands EndsDecimal l
  | [], _, _ => nofun
  | ⟨name, value⟩ :: fs, level, h =>
    List.forall_mem_cons.mpr ⟨stands_between (stands_fieldName name.node).word
      (fun rest => Symbol.standsBefore_blank (by decide) rest)
      (stands_of_behind (stands_expr value level h.1)), stands_recordValues fs level h.2⟩

theorem stands_qualifiers : ∀ (qs : List Qualifier) (level : Nat), legible.qualifiers qs →
    ∀ l ∈ qualifiers level qs, Stands EndsDecimal l
  | [], _, _ => nofun
  | .generator p e :: qs, level, h | .binaryGenerator p e :: qs, level, h =>
    List.forall_mem_cons.mpr ⟨stands_between (stands_of_behind (stands_expr p level h.1.1))
      (fun rest => Symbol.standsBefore_blank (by decide) rest)
      (stands_of_behind (stands_expr e level h.1.2)), stands_qualifiers qs level h.2⟩
  | .filter e :: qs, level, h =>
    List.forall_mem_cons.mpr ⟨stands_of_behind (stands_expr e level h.1),
      stands_qualifiers qs level h.2⟩

theorem stands_guards : ∀ (gs : List (List (Located Expr))) (level : Nat), legible.guards gs →
    ∀ l ∈ guards level gs, Stands EndsDecimal l
  | [], _, _ => nofun
  | g :: gs, level, h =>
    List.forall_mem_cons.mpr ⟨stands_commas (stands_exprs g level h.1), stands_guards gs level h.2⟩

theorem clauses_stand : ∀ (cs : List (Located Clause)) (level : Nat), legible.clauses cs →
    ∀ c ∈ cs, ClauseStands (exprs level c.node.patterns) (guards level c.node.guards)
      (exprs (level + 1) c.node.body)
  | [], _, _ => nofun
  | ⟨⟨ps, gs, body⟩, _⟩ :: cs, level, ⟨⟨_, hps, hgs, hbody⟩, hcs⟩ =>
    List.forall_mem_cons.mpr ⟨⟨opens_exprs ps level, stands_exprs ps level hps,
      stands_guards gs level hgs, stands_exprs body (level + 1) hbody⟩, clauses_stand cs level hcs⟩

theorem trails_after : ∀ (a : Option After) (level : Nat), legible.after a →
    Trails EndsDecimal (after level a)
  | none, _, _ => trails_nil
  | some ⟨timeout, body⟩, level, h => by
    have hbody := trails_arrowBody (level + 1) (stands_exprs body (level + 2) h.2)
    exact ((stands_of_behind (stands_expr timeout (level + 1) h.1)).append hbody).newline
      (level + 1)

end

end Printer

end ErlangFragment
