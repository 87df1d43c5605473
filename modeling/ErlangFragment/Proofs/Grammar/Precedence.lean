import ErlangFragment.Grammar.Expression
import ErlangFragment.Proofs.Grammar.Completeness

/-! Operands joined by operators. A sequence of them is read as the one tree that groups it by the
table of precedence, and it is refused if two comparisons stand in it with nothing but tighter
operators between them. -/

namespace ErlangFragment.Grammar

open ErlangFragment.Parser ErlangFragment.Reader

/-! ### The table of precedence -/

inductive Associativity
  | left | right | none
deriving DecidableEq

/-- A row of the table. Operators of a higher level bind more tightly. -/
structure Precedence where
  level : Nat
  associativity : Associativity
deriving DecidableEq

/-- The row that an operator stands in; `none` is `=`. -/
def precedence : Option BinaryOp → Precedence
  | none | some .send => ⟨100, .right⟩
  | some .orelse => ⟨150, .right⟩
  | some .andalso => ⟨160, .right⟩
  | some .eq | some .neq | some .exactEq | some .exactNeq | some .lt | some .ltEq | some .gt
  | some .gtEq =>
    ⟨200, .none⟩
  | some .append | some .subtract => ⟨300, .right⟩
  | some .add | some .sub | some .bor | some .bxor | some .bsl | some .bsr | some .or | some .xor =>
    ⟨400, .left⟩
  | some .mul | some .div | some .intDiv | some .rem | some .band | some .and => ⟨500, .left⟩

/-- The operand that `p` has on this side may have `q` in it without parentheses. -/
def Holds (side : Associativity) (p q : Option BinaryOp) : Prop :=
  (precedence p).level < (precedence q).level ∨
    (precedence p).level = (precedence q).level ∧ (precedence p).associativity = side

/-- The rows of the table with the binding powers of their operators. -/
def rows : List (Precedence × BindingPower) :=
  [(⟨100, .right⟩, ⟨2, 1⟩), (⟨150, .right⟩, ⟨4, 3⟩), (⟨160, .right⟩, ⟨6, 5⟩),
    (⟨200, .none⟩, ⟨7, 8⟩), (⟨300, .right⟩, ⟨10, 9⟩), (⟨400, .left⟩, ⟨11, 12⟩),
    (⟨500, .left⟩, ⟨13, 14⟩)]

section

variable {side : Associativity} {p q r : Option BinaryOp}

theorem mem_rows (p : Option BinaryOp) : (precedence p, connectivePower p) ∈ rows := by
  rcases p with _ | p
  · decide
  · cases p <;> decide

theorem isComparison_iff : isComparison p = true ↔ (precedence p).associativity = .none := by
  rcases p with _ | p
  · decide
  · cases p <;> decide

/-- The operators of a level all group to the same side. -/
theorem associativity_eq (h : (precedence p).level = (precedence q).level) :
    (precedence p).associativity = (precedence q).associativity := by
  have hrows : ∀ x ∈ rows, ∀ y ∈ rows, x.1.level = y.1.level →
      x.1.associativity = y.1.associativity := by
    decide
  exact hrows _ (mem_rows p) _ (mem_rows q) h

theorem level_eq_of_isComparison (hp : isComparison p = true) (hq : isComparison q = true) :
    (precedence p).level = (precedence q).level := by
  have hrows : ∀ x ∈ rows, ∀ y ∈ rows, x.1.associativity = .none → y.1.associativity = .none →
      x.1.level = y.1.level := by
    decide
  exact hrows _ (mem_rows p) _ (mem_rows q) (isComparison_iff.mp hp) (isComparison_iff.mp hq)

/-- Binding powers say what may stand in a right operand. -/
theorem right_le_left_iff : (connectivePower p).right ≤ (connectivePower q).left ↔
    Holds .right p q := by
  have hrows : ∀ x ∈ rows, ∀ y ∈ rows, x.2.right ≤ y.2.left ↔
      x.1.level < y.1.level ∨ x.1.level = y.1.level ∧ x.1.associativity = .right := by
    decide
  exact hrows _ (mem_rows p) _ (mem_rows q)

theorem Holds.trans (h : Holds side p q) (h' : Holds side q r) : Holds side p r := by
  rcases h with h | ⟨h, hp⟩
  · rcases h' with h' | ⟨h', -⟩
    · exact .inl (Nat.lt_trans h h')
    · exact .inl (h' ▸ h)
  · rcases h' with h' | ⟨h', -⟩
    · exact .inl (h ▸ h')
    · exact .inr ⟨h.trans h', hp⟩

/-- Two operators next to each other do not hold each other. -/
theorem Holds.not_right (h : Holds .left p q) : ¬ Holds .right q p := by
  rintro (h' | ⟨h', hright⟩)
  · rcases h with h | ⟨h, -⟩ <;> omega
  · rcases h with h | ⟨h, hleft⟩
    · omega
    · rw [associativity_eq h, hright] at hleft
      cases hleft

theorem Holds.trans_right (h : Holds .left p q) (h' : Holds .right q r) : Holds .left p r := by
  rcases h' with h' | ⟨h', hright⟩
  · rcases h with h | ⟨h, -⟩
    · exact .inl (Nat.lt_trans h h')
    · exact .inl (h ▸ h')
  · rcases h with h | ⟨h, hleft⟩
    · exact .inl (h' ▸ h)
    · rw [associativity_eq h, hright] at hleft
      cases hleft

/-- Comparisons hold, and are held by, operators of other levels only. -/
theorem Holds.level_lt (h : Holds side p q) (hside : side ≠ .none)
    (hc : isComparison p = true ∨ isComparison q = true) :
    (precedence p).level < (precedence q).level := by
  rcases h with h | ⟨heq, hp⟩
  · exact h
  · rcases hc with hc | hc
    · exact absurd (hp.symm.trans (isComparison_iff.mp hc)) hside
    · exact absurd (hp.symm.trans ((associativity_eq heq).trans (isComparison_iff.mp hc))) hside

/-- An operator that the right operand of `p` leaves over holds `p`, unless both are comparisons. -/
theorem holds_left_of_lt (h : (connectivePower q).left < (connectivePower p).right)
    (hc : (isComparison q && isComparison p) = false) : Holds .left q p := by
  have hright : ¬ Holds .right p q := fun h' => Nat.not_le.mpr h (right_le_left_iff.mpr h')
  rcases Nat.lt_trichotomy (precedence q).level (precedence p).level with hlt | heq | hgt
  · exact .inl hlt
  · refine .inr ⟨heq, ?_⟩
    cases hq : (precedence q).associativity with
    | left => rfl
    | right => exact absurd (.inr ⟨heq.symm, associativity_eq heq ▸ hq⟩) hright
    | none =>
        have hp : (precedence p).associativity = .none := associativity_eq heq ▸ hq
        rw [isComparison_iff.mpr hq, isComparison_iff.mpr hp] at hc
        cases hc
  · exact absurd (.inl hgt) hright

end

/-! ### Sequences and trees -/

/-- A token that is an expression of its own. -/
structure Operand where
  token : Located Token
  expr : Expr
  simple : simple? token.node = some expr

/-- A token that joins two operands. -/
structure Operator where
  token : Located Token
  op : Option BinaryOp
  connective : connective? token.node = some op

/-- An operand and further ones, each behind an operator. -/
@[ext]
structure OperatorSequence where
  first : Operand
  further : List (Operator × Operand)

def pairTokens : List (Operator × Operand) → List (Located Token)
  | [] => []
  | (o, p) :: qs => o.token :: p.token :: pairTokens qs

@[simp] theorem length_pairTokens (qs : List (Operator × Operand)) :
    (pairTokens qs).length = 2 * qs.length := by
  induction qs with
  | nil => rfl
  | cons q qs ih =>
      simp only [pairTokens, List.length_cons, ih]
      omega

theorem pairTokens_append (qs rs : List (Operator × Operand)) :
    pairTokens (qs ++ rs) = pairTokens qs ++ pairTokens rs := by
  induction qs with
  | nil => rfl
  | cons q qs ih => simp [pairTokens, ih]

namespace OperatorSequence

def tokens (s : OperatorSequence) : List (Located Token) := s.first.token :: pairTokens s.further

def operators (s : OperatorSequence) : List Operator := s.further.map Prod.fst

end OperatorSequence

inductive OperatorTree
  | operand (p : Operand)
  | node (o : Operator) (lhs rhs : OperatorTree)

/-- Two comparisons stand among the operators with nothing but tighter operators between them. -/
def Chained (os : List Operator) : Prop :=
  ∃ before a between b after, os = before ++ a :: (between ++ b :: after) ∧
    isComparison a.op = true ∧
    isComparison b.op = true ∧ ∀ o ∈ between, (precedence a.op).level < (precedence o.op).level

theorem Chained.append_left {os : List Operator} (h : Chained os) (ps : List Operator) :
    Chained (ps ++ os) := by
  obtain ⟨before, a, between, b, after, rfl, h⟩ := h
  exact ⟨ps ++ before, a, between, b, after, (List.append_assoc _ _ _).symm, h⟩

namespace OperatorTree

/-- The operands and operators of a tree as they stand in the text. -/
def inOrder : OperatorTree → OperatorSequence
  | operand p => ⟨p, []⟩
  | node o l r => ⟨l.inOrder.first, l.inOrder.further ++ (o, r.inOrder.first) :: r.inOrder.further⟩

def operators (t : OperatorTree) : List Operator := t.inOrder.operators

/-- The tree as an expression. -/
def expr : OperatorTree → Located Expr
  | operand p => ⟨p.expr, p.token.span⟩
  | node o l r => join l.expr r.expr o.op

/-- Every operator holds those in its operands. -/
def Grouped : OperatorTree → Prop
  | operand _ => True
  | node o l r =>
      (∀ q ∈ l.operators, Holds .left o.op q.op) ∧ (∀ q ∈ r.operators, Holds .right o.op q.op) ∧
    l.Grouped ∧ r.Grouped

/-- The operand that the text of the tree ends with. -/
def last : OperatorTree → Operand
  | operand p => p
  | node _ _ r => r.last

@[simp] theorem operators_operand (p : Operand) : (operand p).operators = [] := rfl

@[simp] theorem operators_node (o : Operator) (l r : OperatorTree) :
    (node o l r).operators = l.operators ++ o :: r.operators := by
  simp [operators, inOrder, OperatorSequence.operators]

variable {o o' : Operator} {l r l' r' t u : OperatorTree}

/-- Of two ways to split a sequence at its root, neither has its root in the left operand of the
other. -/
theorem root_not_left (hright : ∀ q ∈ r.operators, Holds .right o.op q.op)
    (hleft : ∀ q ∈ l'.operators, Holds .left o'.op q.op) {q : Operator × Operand}
    {us : List (Operator × Operand)} (hl : l'.inOrder.further = l.inOrder.further ++ q :: us)
    (hr : (o, r.inOrder.first) :: r.inOrder.further =
      q :: us ++ (o', r'.inOrder.first) :: r'.inOrder.further) :
    False := by
  obtain ⟨rfl, htail⟩ := List.cons.inj hr
  have ho : o ∈ l'.operators := by simp [operators, OperatorSequence.operators, hl]
  have ho' : o' ∈ r.operators := by simp [operators, OperatorSequence.operators, htail]
  exact (hleft o ho).not_right (hright o' ho')

/-- A sequence is grouped in one way at most. -/
theorem Grouped.unique (ht : t.Grouped) (hu : u.Grouped) (h : t.inOrder = u.inOrder) : t = u := by
  induction t generalizing u with
  | operand p =>
      cases u with
      | operand q =>
          obtain ⟨rfl, -⟩ := OperatorSequence.mk.inj h
          rfl
      | node o l r => simp [inOrder] at h
  | node o l r ihl ihr =>
      cases u with
      | operand q => simp [inOrder] at h
      | node o' l' r' =>
          obtain ⟨hleft, hright, hl, hr⟩ := ht
          obtain ⟨hleft', hright', hl', hr'⟩ := hu
          obtain ⟨hfirst, hfurther⟩ := OperatorSequence.mk.inj h
          rcases List.append_eq_append_iff.mp hfurther with
            ⟨_ | ⟨q, us⟩, hus, hrest⟩ | ⟨_ | ⟨q, us⟩, hus, hrest⟩
          -- The two roots stand at the same place.
          case inl.nil | inr.nil =>
            have hroot : (o, r.inOrder.first) :: r.inOrder.further =
                (o', r'.inOrder.first) :: r'.inOrder.further := by
              simpa [eq_comm] using hrest
            obtain ⟨hhead, htail⟩ := List.cons.inj hroot
            obtain ⟨rfl, hrhs⟩ := Prod.mk.inj hhead
            have hinit : l.inOrder.further = l'.inOrder.further := by simpa [eq_comm] using hus
            rw [ihl hl hl' (OperatorSequence.ext hfirst hinit),
              ihr hr hr' (OperatorSequence.ext hrhs htail)]
          case inl.cons => exact (root_not_left hright hleft' hus hrest).elim
          case inr.cons => exact (root_not_left hright' hleft hus hrest).elim

/-- Comparisons that chain cannot be grouped. -/
theorem Grouped.not_chained (ht : t.Grouped) : ¬ Chained t.operators := by
  induction t with
  | operand p => simp [Chained]
  | node o l r ihl ihr =>
      obtain ⟨hleft, hright, hl, hr⟩ := ht
      rintro ⟨before, a, between, b, after, hsplit, ha, hb, hbetween⟩
      have hlevel : (precedence a.op).level = (precedence b.op).level :=
        level_eq_of_isComparison ha hb
      rw [operators_node] at hsplit
      rcases List.append_eq_append_iff.mp hsplit with
        ⟨_ | ⟨x, us⟩, hus, hrest⟩ | ⟨_ | ⟨x, us⟩, hus, hrest⟩
      -- The root is the first of the comparisons.
      case inl.nil | inr.nil =>
        have hroot : o :: r.operators = a :: (between ++ b :: after) := by
          simpa [eq_comm] using hrest
        obtain ⟨rfl, htail⟩ := List.cons.inj hroot
        have hlt := (hright b (by simp [htail])).level_lt (by decide) (.inl ha)
        omega
      -- Both stand behind the root.
      case inl.cons =>
        obtain ⟨rfl, htail⟩ := List.cons.inj hrest
        exact ihr hr ⟨us, a, between, b, after, htail, ha, hb, hbetween⟩
      -- The first of them stands in front of the root, which is therefore looser.
      case inr.cons =>
        obtain ⟨rfl, htail⟩ := List.cons.inj hrest
        have hlt := (hleft a (by simp [hus])).level_lt (by decide) (.inr ha)
        rcases List.append_eq_append_iff.mp htail with
          ⟨_ | ⟨x, vs⟩, hvs, hbehind⟩ | ⟨_ | ⟨x, vs⟩, hvs, hbehind⟩
        case inl.nil | inr.nil =>
          have hroot : b :: after = o :: r.operators := by simpa [eq_comm] using hbehind
          obtain ⟨rfl, -⟩ := List.cons.inj hroot
          omega
        case inl.cons =>
          obtain ⟨rfl, -⟩ := List.cons.inj hbehind
          refine ihl hl ⟨before, a, between, b, vs, ?_, ha, hb, hbetween⟩
          rw [hus, hvs]
        case inr.cons =>
          obtain ⟨rfl, -⟩ := List.cons.inj hbehind
          have hgt := hbetween o (by simp [hvs])
          omega

theorem lastSpan_tokens (s : Span) (t : OperatorTree) :
    lastSpan s t.inOrder.tokens = t.last.token.span := by
  induction t generalizing s with
  | operand p => rfl
  | node o l r _ ihr =>
      have htokens : (node o l r).inOrder.tokens =
          l.inOrder.tokens ++ o.token :: r.inOrder.tokens := by
        simp [inOrder, OperatorSequence.tokens, pairTokens_append, pairTokens]
      rw [htokens, lastSpan_append, lastSpan_cons]
      exact ihr o.token.span

end OperatorTree

/-! ### Reading -/

/-- Where an operator may stand, there may also stand all that its right operand may have in it. -/
def Inherited (minimum : Nat) : Prop :=
  ∀ p q, minimum ≤ (connectivePower p).left → Holds .right p q → minimum ≤ (connectivePower q).left

theorem inherited_zero : Inherited 0 := fun _ _ _ _ => Nat.zero_le _

theorem inherited_right (p : Option BinaryOp) : Inherited (connectivePower p).right := by
  intro q r hq hr
  exact right_le_left_iff.mpr ((right_le_left_iff.mp hq).trans hr)

/-- The tree that `lhs` and the first of the operators behind it have been read into. -/
structure Grown (minimum : Nat) (lhs : OperatorTree) (qs rest : List (Operator × Operand))
    (t : OperatorTree) :
    Prop where
  first : t.inOrder.first = lhs.inOrder.first
  further : t.inOrder.further ++ rest = lhs.inOrder.further ++ qs
  grouped : t.Grouped
  tight : ∀ o ∈ t.operators, minimum ≤ (connectivePower o.op).left
  stops : ∀ q ∈ rest.head?, (connectivePower q.1.op).left < minimum

/-- What is known of the tree that has been read so far, and of the operator behind it. -/
structure Growing (minimum : Nat) (lhs : OperatorTree) (afterComparison : Bool)
    (qs : List (Operator × Operand)) :
    Prop where
  grouped : lhs.Grouped
  tight : ∀ o ∈ lhs.operators, minimum ≤ (connectivePower o.op).left
  holds : ∀ q ∈ qs.head?, (isComparison q.1.op && afterComparison) = false →
    ∀ o ∈ lhs.operators, Holds .left q.1.op o.op
  chain : afterComparison = true → ∃ before a between, lhs.operators = before ++ a :: between ∧
    isComparison a.op = true ∧ ∀ o ∈ between, (precedence a.op).level < (precedence o.op).level

section

variable {minimum : Nat} {lhs rhs t : OperatorTree} {afterComparison : Bool} {o : Operator}
  {p : Operand}
  {qs rest rest' : List (Operator × Operand)}

theorem growing_operand (minimum : Nat) (p : Operand) (qs : List (Operator × Operand)) :
    Growing minimum (.operand p) false qs := ⟨trivial, by simp, by simp, by simp⟩

/-- One more operator and its right operand. -/
theorem Growing.node (h : Growing minimum lhs afterComparison ((o, p) :: qs))
    (hinherited : Inherited minimum) (hmin : minimum ≤ (connectivePower o.op).left)
    (hc : (isComparison o.op && afterComparison) = false)
    (hrhs : Grown (connectivePower o.op).right (.operand p) qs rest rhs) :
    Growing minimum (.node o lhs rhs) (isComparison o.op) rest := by
  have hleft : ∀ q ∈ lhs.operators, Holds .left o.op q.op := h.holds (o, p) rfl hc
  have hright : ∀ q ∈ rhs.operators, Holds .right o.op q.op :=
    fun q hq => right_le_left_iff.mp (hrhs.tight q hq)
  refine ⟨⟨hleft, hright, h.grouped, hrhs.grouped⟩, ?_, ?_, ?_⟩
  · intro q hq
    rw [OperatorTree.operators_node, List.mem_append, List.mem_cons] at hq
    rcases hq with hq | rfl | hq
    · exact h.tight q hq
    · exact hmin
    · exact hinherited _ _ hmin (hright q hq)
  -- The operator that the right operand left over holds the new root, and by it all that is below.
  · intro q hq hc' r hr
    have hroot : Holds .left q.1.op o.op := holds_left_of_lt (hrhs.stops q hq) hc'
    rw [OperatorTree.operators_node, List.mem_append, List.mem_cons] at hr
    rcases hr with hr | rfl | hr
    · exact hroot.trans (hleft r hr)
    · exact hroot
    · exact hroot.trans_right (hright r hr)
  -- A comparison has only tighter operators behind it, in its right operand.
  · intro hcomparison
    refine ⟨lhs.operators, o, rhs.operators, OperatorTree.operators_node o lhs rhs, hcomparison, ?_⟩
    exact fun q hq => (hright q hq).level_lt (by decide) (.inl hcomparison)

theorem Grown.of_node (hrhs : Grown (connectivePower o.op).right (.operand p) qs rest rhs)
    (h : Grown minimum (.node o lhs rhs) rest rest' t) :
    Grown minimum lhs ((o, p) :: qs) rest' t := by
  refine ⟨h.first, ?_, h.grouped, h.tight, h.stops⟩
  have hfirst : rhs.inOrder.first = p := hrhs.first
  have hfurther : rhs.inOrder.further ++ rest = qs := hrhs.further
  rw [h.further, OperatorTree.inOrder, hfirst, List.append_assoc, List.cons_append, hfurther]

/-- A comparison behind one that is still open makes a chain. -/
theorem Growing.chained (h : Growing minimum lhs true ((o, p) :: qs))
    (hc : isComparison o.op = true) :
    Chained (lhs.operators ++ ((o, p) :: qs).map Prod.fst) := by
  obtain ⟨before, a, between, hsplit, ha, hbetween⟩ := h.chain rfl
  exact ⟨before, a, between, o, qs.map Prod.fst, by simp [hsplit], ha, hc, hbetween⟩

end

/-! The tokens end in a terminator, and more tokens may stand behind it. -/

section

variable (stop : Span) (behind : List (Located Token))

def upToTerminator (qs : List (Operator × Operand)) : List (Located Token) :=
  pairTokens qs ++ ⟨.terminator, stop⟩ :: behind

/-- How the reading of `lhs` and the operators behind it ends. -/
inductive Outcome (m : Mode) (minimum : Nat) (lhs : OperatorTree) (qs : List (Operator × Operand)) :
    Except GrammarError (Located Expr × Cursor) → Prop
  | grown {t rest} : Grown minimum lhs qs rest t →
      Outcome m minimum lhs qs (.ok (t.expr, ⟨t.last.token.span, upToTerminator stop behind rest⟩))
  | chained {span} : Chained (lhs.operators ++ qs.map Prod.fst) →
      Outcome m minimum lhs qs (.error ⟨m.context, .chainedComparison, span⟩)

/-- The rules read operands and operators if there are at most `size` tokens. -/
def ReadOperators (rules : Rules Parser) (size : Nat) : Prop :=
  ∀ (minimum : Nat) (m : Mode) (previous : Span) (p : Operand) (qs : List (Operator × Operand)),
    Inherited minimum → (p.token :: upToTerminator stop behind qs).length ≤ size →
      Outcome stop behind m minimum (.operand p) qs
        (rules (.binary minimum) m ⟨previous, p.token :: upToTerminator stop behind qs⟩)

variable {stop behind}
variable {rules : Rules Parser} {size minimum : Nat} {m : Mode} {lhs rhs : OperatorTree}
  {o : Operator} {p : Operand}
  {qs rest : List (Operator × Operand)} {afterComparison : Bool}
  {result : Except GrammarError (Located Expr × Cursor)}

theorem length_upToTerminator (qs : List (Operator × Operand)) :
    (upToTerminator stop behind qs).length = 2 * qs.length + (behind.length + 1) := by
  simp [upToTerminator]

theorem Outcome.of_node (hrhs : Grown (connectivePower o.op).right (.operand p) qs rest rhs)
    (h : Outcome stop behind m minimum (.node o lhs rhs) rest result) :
    Outcome stop behind m minimum lhs ((o, p) :: qs) result := by
  cases h with
  | grown h => exact .grown (hrhs.of_node h)
  | chained h =>
      have hqs : rhs.operators ++ rest.map Prod.fst = qs.map Prod.fst := by
        have hfurther : rhs.inOrder.further ++ rest = qs := hrhs.further
        rw [← hfurther, List.map_append]
        rfl
      refine .chained ?_
      rw [OperatorTree.operators_node, List.append_assoc, List.cons_append, hqs] at h
      exact h

/-- One round of the loop. -/
theorem operations_operator (o : Operator) (n : Nat) (lhs : Located Expr) (previous : Span)
    (ts : List (Located Token)) :
    operations rules minimum (n + 1) lhs afterComparison m ⟨previous, o.token :: ts⟩ =
      if (connectivePower o.op).left < minimum then .ok (lhs, ⟨previous, o.token :: ts⟩)
      else if isComparison o.op && afterComparison then
        .error ⟨m.context, .chainedComparison, o.token.span⟩
      else (rules (.binary (connectivePower o.op).right) >>= fun rhs =>
        operations rules minimum n (join lhs rhs o.op) (isComparison o.op)) m
          ⟨o.token.span, ts⟩ := by
  have hpasses : Cursor.Passes ⟨previous, o.token :: ts⟩ [o.token] ⟨o.token.span, ts⟩ := ⟨rfl, rfl⟩
  rw [operations, next?_bind]
  simp only [List.head?_cons, o.connective]
  by_cases hmin : (connectivePower o.op).left < minimum
  · rw [if_pos hmin, if_pos hmin]
    rfl
  · rw [if_neg hmin, if_neg hmin]
    by_cases hc : (isComparison o.op && afterComparison) = true
    · rw [if_pos hc, if_pos hc]
      rfl
    · rw [if_neg hc, if_neg hc]
      exact advance_bind hpasses

/-- Where no operator stands the loop ends. -/
theorem operations_terminator (n : Nat) (lhs : Located Expr) (previous : Span) :
    operations rules minimum n lhs afterComparison m ⟨previous, upToTerminator stop behind []⟩ =
      .ok (lhs, ⟨previous, upToTerminator stop behind []⟩) := by
  cases n <;> rfl

theorem Growing.stopped (h : Growing minimum lhs afterComparison qs)
    (hstops : ∀ q ∈ qs.head?, (connectivePower q.1.op).left < minimum) :
    Grown minimum lhs qs qs lhs :=
  ⟨rfl, rfl, h.grouped, h.tight, hstops⟩

/-- The rounds of the loop keep what is known of the tree. -/
theorem operations_outcome (hrules : ReadOperators stop behind rules size)
    (hinherited : Inherited minimum) {n : Nat} (hn : qs.length ≤ n)
    (hsize : (upToTerminator stop behind qs).length ≤ size)
    (h : Growing minimum lhs afterComparison qs) :
    Outcome stop behind m minimum lhs qs (operations rules minimum n lhs.expr afterComparison m
      ⟨lhs.last.token.span, upToTerminator stop behind qs⟩) := by
  induction n generalizing lhs afterComparison qs with
  | zero =>
      obtain rfl : qs = [] := List.length_eq_zero_iff.mp (Nat.le_zero.mp hn)
      exact .grown (h.stopped (by simp))
  | succ n ih =>
      rcases qs with _ | ⟨⟨o, p⟩, qs⟩
      · rw [operations_terminator]
        exact .grown (h.stopped (by simp))
      · rw [length_upToTerminator, List.length_cons] at hsize
        rw [List.length_cons] at hn
        refine (operations_operator o n lhs.expr lhs.last.token.span _).symm ▸ ?_
        by_cases hmin : (connectivePower o.op).left < minimum
        · rw [if_pos hmin]
          exact .grown (h.stopped (by rintro q ⟨⟩; exact hmin))
        rw [if_neg hmin]
        by_cases hc : (isComparison o.op && afterComparison) = true
        · obtain ⟨hcomparison, rfl⟩ := Bool.and_eq_true_iff.mp hc
          rw [if_pos hc]
          exact .chained (h.chained hcomparison)
        rw [if_neg hc]
        have hrhs := hrules (connectivePower o.op).right m o.token.span p qs
            (inherited_right o.op) (by
          rw [List.length_cons, length_upToTerminator]
          omega)
        generalize hresult : rules (.binary (connectivePower o.op).right) m
          ⟨o.token.span, p.token :: upToTerminator stop behind qs⟩ = result at hrhs
        cases hrhs with
        | @grown rhs rest hrhs =>
            have hrest : rhs.inOrder.further.length + rest.length = qs.length := by
              rw [← List.length_append, hrhs.further]
              rfl
            have hgrowing := h.node hinherited (Nat.not_lt.mp hmin) (Bool.not_eq_true _ ▸ hc) hrhs
            refine (bind_of_ok hresult).symm ▸ Outcome.of_node hrhs (ih ?_ ?_ hgrowing)
            · omega
            · rw [length_upToTerminator]
              omega
        | chained hchained =>
            have happend := hchained.append_left (lhs.operators ++ [o])
            refine (bind_of_error hresult).symm ▸ .chained ?_
            simpa using happend

/-- Nothing is applied to an operand in front of an operator or a terminator. -/
theorem stopsPostfixes_upToTerminator (b : Bool) (previous : Span)
    (qs : List (Operator × Operand)) :
    stopsPostfixes b (⟨previous, upToTerminator stop behind qs⟩ : Cursor).next := by
  rcases qs with _ | ⟨⟨⟨⟨t, span⟩, op, hop⟩, p⟩, qs⟩
  · simp [stopsPostfixes, Cursor.next, upToTerminator, pairTokens]
  · refine ⟨?_, ?_, ?_⟩ <;> rintro ⟨⟩ <;> cases hop

theorem unary_operand (n : Nat) (p : Operand) (previous : Span) (qs : List (Operator × Operand)) :
    (unary (within n) : Parser (Located Expr)) m
      ⟨previous, p.token :: upToTerminator stop behind qs⟩ =
      .ok (⟨p.expr, p.token.span⟩, ⟨p.token.span, upToTerminator stop behind qs⟩) := by
  have hprimary : Derivation m.colonSeparates .primary ⟨p.expr, p.token.span⟩ [p.token]
      (⟨p.token.span, upToTerminator stop behind qs⟩ : Cursor).next := .simple p.simple
  have hunary := hprimary.unary_of_primary (stopsPostfixes_upToTerminator _ p.token.span qs)
  exact unary_complete (within_complete n) hunary ⟨rfl, rfl⟩ (Nat.le_add_left 1 n)

/-- The rules for so many tokens read so many tokens. -/
theorem within_readOperators (n : Nat) : ReadOperators stop behind (within n) n := by
  induction n with
  | zero =>
      intro minimum m previous p qs _ hsize
      cases hsize
  | succ n ih =>
      intro minimum m previous p qs hinherited hsize
      rw [List.length_cons] at hsize
      have hlength : qs.length ≤ (upToTerminator stop behind qs).length := by
        rw [length_upToTerminator]
        omega
      change Outcome stop behind m minimum (.operand p) qs
        ((binary (within n) minimum : Parser (Located Expr)) m _)
      rw [binary, bind_of_ok (unary_operand n p previous qs), bounded_apply]
      exact operations_outcome ih hinherited hlength (Nat.le_of_succ_le_succ hsize)
        (growing_operand minimum p qs)

end

/-- Operands and operators in front of a terminator are read into the one tree that groups them by
the table. They are refused if comparisons chain, and only then. -/
theorem binary_of_operators (s : OperatorSequence) (m : Mode) (previous stop : Span)
    (behind : List (Located Token)) :
    let tokens := s.tokens ++ ⟨.terminator, stop⟩ :: behind
    let result := withRules (fun rules : Rules Parser => rules (.binary 0)) m ⟨previous, tokens⟩
    ((∃ span, result = .error ⟨m.context, .chainedComparison, span⟩) ↔ Chained s.operators) ∧
      (¬ Chained s.operators → ∃ t : OperatorTree,
        result = .ok (t.expr, ⟨lastSpan previous s.tokens, ⟨.terminator, stop⟩ :: behind⟩) ∧
          (t.inOrder = s ∧ t.Grouped) ∧ ∀ u : OperatorTree, u.inOrder = s → u.Grouped → u = t) := by
  intro tokens result
  have hresult : Outcome stop behind m 0 (.operand s.first) s.further result :=
    within_readOperators tokens.length 0 m previous s.first s.further inherited_zero (Nat.le_refl _)
  generalize result = r at hresult
  cases hresult with
  | @grown t rest h =>
      obtain rfl : rest = [] := by
        rcases rest with _ | ⟨q, rest⟩
        · rfl
        · exact absurd (h.stops q rfl) (Nat.not_lt_zero _)
      have horder : t.inOrder = s :=
        OperatorSequence.ext h.first ((List.append_nil _).symm.trans h.further)
      have hchained : ¬ Chained s.operators := horder ▸ h.grouped.not_chained
      refine ⟨⟨?_, fun hc => absurd hc hchained⟩, fun _ => ⟨t, ?_, ⟨horder, h.grouped⟩, ?_⟩⟩
      · rintro ⟨span, hspan⟩
        cases hspan
      · rw [← horder, OperatorTree.lastSpan_tokens]
        rfl
      · intro u hu hgrouped
        exact hgrouped.unique h.grouped (hu.trans horder.symm)
  | @chained span h =>
      exact ⟨⟨fun _ => h, fun _ => ⟨span, rfl⟩⟩, fun hc => absurd h hc⟩

/-- The operands and operators of `X + 1 * Y`, grouped by hand. -/
def sumOfProduct : OperatorTree :=
  .node ⟨⟨.symbol .plus, ⟨2, 3, 1⟩⟩, some .add, rfl⟩
    (.operand ⟨⟨.var "X", ⟨0, 1, 1⟩⟩, .var "X", rfl⟩)
    (.node ⟨⟨.symbol .star, ⟨6, 7, 1⟩⟩, some .mul, rfl⟩
      (.operand ⟨⟨.integer (.small 1), ⟨4, 5, 1⟩⟩, .integer (.small 1), rfl⟩)
      (.operand ⟨⟨.var "Y", ⟨8, 9, 1⟩⟩, .var "Y", rfl⟩))

/-- The operands and operators of `1 < X + 2 == Y`. -/
def comparisons : OperatorSequence where
  first := ⟨⟨.integer (.small 1), ⟨0, 1, 1⟩⟩, .integer (.small 1), rfl⟩
  further :=
    [(⟨⟨.symbol .less, ⟨2, 3, 1⟩⟩, some .lt, rfl⟩, ⟨⟨.var "X", ⟨4, 5, 1⟩⟩, .var "X", rfl⟩),
      (⟨⟨.symbol .plus, ⟨6, 7, 1⟩⟩, some .add, rfl⟩,
        ⟨⟨.integer (.small 2), ⟨8, 9, 1⟩⟩, .integer (.small 2), rfl⟩),
      (⟨⟨.symbol .equalEqual, ⟨10, 12, 1⟩⟩, some .eq, rfl⟩,
        ⟨⟨.var "Y", ⟨13, 14, 1⟩⟩, .var "Y", rfl⟩)]

/-- The product is held by the sum, and the sum does not separate the comparisons. -/
theorem binary_of_operators_sum_and_comparisons :
    withRules (fun rules : Rules Parser => rules (.binary 0)) ⟨.expression, false⟩
        ⟨.nowhere, sumOfProduct.inOrder.tokens ++ [⟨.terminator, ⟨9, 10, 1⟩⟩]⟩ =
      .ok (⟨.binaryOp .add ⟨.var "X", ⟨0, 1, 1⟩⟩
          ⟨.binaryOp .mul ⟨.integer (.small 1), ⟨4, 5, 1⟩⟩ ⟨.var "Y", ⟨8, 9, 1⟩⟩, ⟨4, 9, 1⟩⟩,
          ⟨0, 9, 1⟩⟩,
        ⟨⟨8, 9, 1⟩, [⟨.terminator, ⟨9, 10, 1⟩⟩]⟩) ∧
      ∃ span, withRules (fun rules : Rules Parser => rules (.binary 0)) ⟨.expression, false⟩
          ⟨.nowhere, comparisons.tokens ++ [⟨.terminator, ⟨14, 15, 1⟩⟩]⟩ =
        .error ⟨.expression, .chainedComparison, span⟩ := by
  have hgrouped : sumOfProduct.Grouped := by
    simp [sumOfProduct, OperatorTree.Grouped, Holds, precedence]
  have hchained : Chained comparisons.operators :=
    ⟨[], _, [_], _, [], rfl, rfl, rfl, by simp [precedence]⟩
  constructor
  · obtain ⟨t, hrun, -, hunique⟩ :=
      (binary_of_operators sumOfProduct.inOrder ⟨.expression, false⟩ .nowhere ⟨9, 10, 1⟩ []).2
        hgrouped.not_chained
    obtain rfl := hunique sumOfProduct rfl hgrouped
    exact hrun
  · exact (binary_of_operators comparisons ⟨.expression, false⟩ .nowhere ⟨14, 15, 1⟩
      []).1.mpr hchained

end ErlangFragment.Grammar
