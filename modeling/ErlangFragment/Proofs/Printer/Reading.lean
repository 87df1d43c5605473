import ErlangFragment.Proofs.Grammar.Derivation
import ErlangFragment.Proofs.Layout
import ErlangFragment.Proofs.Printer.Faithful
import ErlangFragment.Proofs.Tree.Erasure

/-! What it means that the tokens of a layout read as the expression that was laid out: as a
primary, as an operand or as a whole expression, as far as its layout may stand there without
parentheses. -/

namespace ErlangFragment

open Grammar

/-! ### Tokens without a place -/

/-- The token outside of any text. -/
def Token.unplaced (t : Token) : Located Token := ⟨t, .nowhere⟩

def unplaced (ts : List Token) : List (Located Token) := ts.map Token.unplaced

@[simp] theorem node_unplaced (t : Token) : t.unplaced.node = t := rfl

@[simp] theorem span_unplaced (t : Token) : t.unplaced.span = .nowhere := rfl

@[simp] theorem unplaced_nil : unplaced [] = [] := rfl

@[simp] theorem unplaced_cons (t : Token) (ts : List Token) :
    unplaced (t :: ts) = t.unplaced :: unplaced ts := rfl

@[simp] theorem unplaced_append (ts us : List Token) :
    unplaced (ts ++ us) = unplaced ts ++ unplaced us := List.map_append

@[simp] theorem map_node_unplaced (ts : List Token) : (unplaced ts).map Located.node = ts := by
  induction ts with
  | nil => rfl
  | cons t ts ih => simp [ih]

@[simp] theorem nowhere_through_nowhere : Span.nowhere.through Span.nowhere = Span.nowhere := rfl

@[simp] theorem lastSpan_unplaced (ts : List Token) :
    lastSpan .nowhere (unplaced ts) = .nowhere := by
  induction ts with
  | nil => rfl
  | cons t ts ih => exact ih

@[simp] theorem extent_unplaced (ts : List Token) : extent (unplaced ts) = .nowhere := by
  cases ts with
  | nil => rfl
  | cons t ts => simp [extent]

/-- The expression without spans, its own included. -/
def Expr.bare (e : Expr) : Located Expr := ⟨e.eraseParts, .nowhere⟩

@[simp] theorem erase_eq_bare (e : Located Expr) : erase e = e.node.bare := erase_expr e.node e.span

@[simp] theorem span_bare (e : Expr) : e.bare.span = .nowhere := rfl

/-! ### What stands behind -/

/-- Behind the token an operand is complete. -/
structure Rests (b : Bool) (next : Option Token) : Prop where
  postfixes : stopsPostfixes b next
  string : ∀ s, next ≠ some (.string s)

/-- Behind the token an expression is complete. -/
structure Closes (b : Bool) (next : Option Token) : Prop extends Rests b next where
  operator : next.bind connective? = none

theorem Closes.stopsOperations {b : Bool} {next : Option Token} (h : Closes b next)
    (minimum : Nat) :
    stopsOperations minimum next := by
  intro op hop
  rw [h.operator] at hop
  cases hop

namespace Printer

/-- What may stand behind the layout of a primary: nothing that would be taken for more of it. -/
structure Follows (e : Expr) (next : Option Token) : Prop where
  string : ∀ s, next ≠ some (.string s)
  arguments : endsInMacro e = true → next ≠ some (.symbol .leftParen)

/-- The tokens read as the expression wherever it is laid out without parentheses. -/
structure Reads (b : Bool) (e : Expr) (ts : List Token) : Prop where
  primary : printsPrimary e = true → ∀ next, Follows e next →
    Derivation b .primary e.bare (unplaced ts) next
  applied : baseNeedsParens e = false → ∀ us e' next, Follows e (firstOf us next) →
    Derivation b (.postfixes e.bare) e' us next → Derivation b .unary e' (unplaced ts ++ us) next
  unary : operandNeedsParens e = false → ∀ next, Rests b next →
    Derivation b .unary e.bare (unplaced ts) next
  binary : isCatch e = false → ∀ minimum us e' next, Rests b (firstOf us next) →
    (∀ p, power? e = some p → minimum ≤ p.left ∧ stopsOperations p.right (firstOf us next)) →
    Derivation b (.operations minimum e.bare (isComparison e)) e' us next →
    Derivation b (.binary minimum) e' (unplaced ts ++ us) next
  expression : ∀ next, Closes b next → Derivation b .expression e.bare (unplaced ts) next

variable {b : Bool} {e : Expr} {ts : List Token}

theorem Follows.of_rests {next : Option Token} (h : Rests b next) : Follows e next :=
  ⟨h.string, fun _ => h.postfixes.1⟩

/-- What may be an operand without parentheses has no operator of its own. -/
theorem operandNeedsParens_eq_false :
    operandNeedsParens e = false ↔ power? e = none ∧ isCatch e = false := by
  simp [operandNeedsParens]

theorem isComparison_of_power? (h : power? e = none) : isComparison e = false := by
  cases e <;> first | rfl | cases h

theorem operand_of_base (h : baseNeedsParens e = false) : operandNeedsParens e = false := by
  cases e <;> first | exact h | rfl

theorem base_of_primary (h : printsPrimary e = true) : baseNeedsParens e = false := by
  cases e <;> first | rfl | cases h

/-! ### From tighter places to looser ones -/

/-- What reads as a binary operation in front of any end reads as an expression. -/
theorem expression_of_binary
    (h : ∀ minimum us e' next, Rests b (firstOf us next) →
      (∀ p, power? e = some p → minimum ≤ p.left ∧ stopsOperations p.right (firstOf us next)) →
      Derivation b (.operations minimum e.bare (isComparison e)) e' us next →
      Derivation b (.binary minimum) e' (unplaced ts ++ us) next) (next : Option Token)
    (hnext : Closes b next) : Derivation b .expression e.bare (unplaced ts) next := by
  have d := h 0 [] e.bare next hnext.toRests
    (fun p _ => ⟨Nat.zero_le _, hnext.stopsOperations p.right⟩)
    (.operationsNil (hnext.stopsOperations 0))
  rw [List.append_nil] at d
  exact .operators d

/-- From the places where calls and the like may be applied to it, to all looser ones. -/
theorem Reads.of_unary (hop : operandNeedsParens e = false)
    (hprimary : printsPrimary e = true → ∀ next, Follows e next →
      Derivation b .primary e.bare (unplaced ts) next)
    (happlied : baseNeedsParens e = false → ∀ us e' next, Follows e (firstOf us next) →
      Derivation b (.postfixes e.bare) e' us next → Derivation b .unary e' (unplaced ts ++ us) next)
    (hunary : ∀ next, Rests b next → Derivation b .unary e.bare (unplaced ts) next) :
    Reads b e ts := by
  obtain ⟨hpower, -⟩ := operandNeedsParens_eq_false.mp hop
  have hbinary : ∀ minimum us e' next, Rests b (firstOf us next) →
      (∀ p, power? e = some p → minimum ≤ p.left ∧ stopsOperations p.right (firstOf us next)) →
      Derivation b (.operations minimum e.bare (isComparison e)) e' us next →
      Derivation b (.binary minimum) e' (unplaced ts ++ us) next := by
    intro minimum us e' next hnext _ d
    rw [isComparison_of_power? hpower] at d
    exact .binary (hunary _ hnext) d
  exact ⟨hprimary, happlied, fun _ => hunary, fun _ => hbinary, expression_of_binary hbinary⟩

/-- A node that something may be applied to reads in every way, if it reads as an operand with
everything that is applied to it. -/
theorem Reads.of_applied (hbase : baseNeedsParens e = false)
    (hprimary : printsPrimary e = true → ∀ next, Follows e next →
      Derivation b .primary e.bare (unplaced ts) next)
    (happlied : ∀ us e' next, Follows e (firstOf us next) →
      Derivation b (.postfixes e.bare) e' us next →
      Derivation b .unary e' (unplaced ts ++ us) next) :
    Reads b e ts := by
  refine .of_unary (operand_of_base hbase) hprimary (fun _ => happlied) fun next hnext => ?_
  have d := happlied [] e.bare next (.of_rests hnext) (.postfixesNil hnext.postfixes)
  rwa [List.append_nil] at d

/-- A primary reads in every way. -/
theorem Reads.of_primary (hp : printsPrimary e = true)
    (h : ∀ next, Follows e next → Derivation b .primary e.bare (unplaced ts) next) : Reads b e ts :=
  .of_applied (base_of_primary hp) (fun _ => h) fun _ _ _ hnext d => .applied (h _ hnext) d

/-- A node with an operator reads in every way, if it reads with any operations behind it that hold
less tightly. -/
theorem Reads.of_binary {p : BindingPower} (hp : power? e = some p)
    (h : ∀ minimum us e' next, Rests b (firstOf us next) → minimum ≤ p.left →
      stopsOperations p.right (firstOf us next) →
      Derivation b (.operations minimum e.bare (isComparison e)) e' us next →
      Derivation b (.binary minimum) e' (unplaced ts ++ us) next) : Reads b e ts := by
  have hop : operandNeedsParens e = true := by simp [operandNeedsParens, hp]
  have hbase : baseNeedsParens e = true := by
    refine Bool.not_eq_false _ ▸ fun h => ?_
    rw [operand_of_base h] at hop
    cases hop
  have hprimary : ¬ printsPrimary e = true := fun h => by
    rw [base_of_primary h] at hbase
    cases hbase
  have hbinary : ∀ minimum us e' next, Rests b (firstOf us next) →
      (∀ p, power? e = some p → minimum ≤ p.left ∧ stopsOperations p.right (firstOf us next)) →
      Derivation b (.operations minimum e.bare (isComparison e)) e' us next →
      Derivation b (.binary minimum) e' (unplaced ts ++ us) next :=
    fun minimum us e' next hnext hpower d =>
      h minimum us e' next hnext (hpower p hp).1 (hpower p hp).2 d
  exact {
    primary := fun hb => absurd hb hprimary
    applied := fun hb => absurd hb (by simp [hbase])
    unary := fun hb => absurd hb (by simp [hop])
    binary := fun _ => hbinary
    expression := expression_of_binary hbinary }

/-! ### In parentheses -/

/-- In parentheses every node is a primary. -/
theorem Reads.parenthesized (h : Reads false e ts) (b : Bool) (next : Option Token) :
    Derivation b .primary e.bare (unplaced (.symbol .leftParen :: (ts ++ [.symbol .rightParen])))
      next := by
  have hclose : Closes false (some (.symbol .rightParen)) :=
    ⟨⟨⟨by simp, by simp, by simp⟩, by simp⟩, rfl⟩
  have d : Derivation b .primary e.bare (_ :: (unplaced ts ++ [_])) next :=
    .parenthesized (l := (Token.symbol .leftParen).unplaced)
      (r := (Token.symbol .rightParen).unplaced)
      rfl rfl (h.expression _ hclose)
  simpa using d

/-- The tokens in parentheses if they need them. -/
def wrap (needed : Bool) (ts : List Token) : List Token :=
  if needed then .symbol .leftParen :: (ts ++ [.symbol .rightParen]) else ts

/-- An operand, in parentheses where it needs them. -/
theorem Reads.operand (hf : Reads false e ts) (h : operandNeedsParens e = false → Reads b e ts)
    {next : Option Token} (hnext : Rests b next) :
    Derivation b .unary e.bare (unplaced (wrap (operandNeedsParens e) ts)) next := by
  cases hop : operandNeedsParens e with
  | true => exact (hf.parenthesized b next).unary_of_primary hnext.postfixes
  | false => exact (h hop).unary hop next hnext

/-- What something is applied to, in parentheses where it needs them. -/
theorem Reads.base (hf : Reads false e ts) (h : baseNeedsParens e = false → Reads b e ts)
    {us : List (Located Token)} {e' : Located Expr} {next : Option Token}
    (hnext : Follows e (firstOf us next)) (d : Derivation b (.postfixes e.bare) e' us next) :
    Derivation b .unary e' (unplaced (wrap (baseNeedsParens e) ts) ++ us) next := by
  cases hbase : baseNeedsParens e with
  | true => exact .applied (hf.parenthesized b _) d
  | false => exact (h hbase).applied hbase us e' next hnext d

theorem primary_of_bare (h : isBare e = true) : printsPrimary e = true ∧ endsInMacro e = false := by
  cases e <;> first | exact ⟨rfl, rfl⟩ | cases h

/-- A primary, in parentheses if it is none. -/
theorem Reads.bare (hf : Reads false e ts) (h : isBare e = true → Reads b e ts)
    {next : Option Token} (hnext : ∀ s, next ≠ some (.string s)) :
    Derivation b .primary e.bare (unplaced (wrap (!isBare e) ts)) next := by
  cases hbare : isBare e with
  | true =>
      obtain ⟨hp, hends⟩ := primary_of_bare hbare
      exact (h hbare).primary hp next ⟨hnext, by simp [hends]⟩
  | false => exact hf.parenthesized b next

/-! ### Operators -/

theorem mem_powers (op : Option BinaryOp) :
    connectivePower op ∈ [⟨2, 1⟩, ⟨4, 3⟩, ⟨6, 5⟩, ⟨7, 8⟩, ⟨10, 9⟩, ⟨11, 12⟩,
      (⟨13, 14⟩ : BindingPower)] := by
  rcases op with _ | op
  · decide
  · cases op <;> decide

/-- The powers are ordered alike on both sides of their operators. -/
theorem left_le_left {o o' : Option BinaryOp}
    (h : (connectivePower o).left < (connectivePower o').right) :
    (connectivePower o).left ≤ (connectivePower o').left := by
  have hall : ∀ p ∈ [⟨2, 1⟩, ⟨4, 3⟩, ⟨6, 5⟩, ⟨7, 8⟩, ⟨10, 9⟩, ⟨11, 12⟩, (⟨13, 14⟩ : BindingPower)],
      ∀ q ∈ [⟨2, 1⟩, ⟨4, 3⟩, ⟨6, 5⟩, ⟨7, 8⟩, ⟨10, 9⟩, ⟨11, 12⟩, (⟨13, 14⟩ : BindingPower)],
        p.left < q.right → p.left ≤ q.left := by decide
  exact hall _ (mem_powers o) _ (mem_powers o') h

theorem right_le_right {o o' : Option BinaryOp}
    (h : (connectivePower o).right ≤ (connectivePower o').left) :
    (connectivePower o).right ≤ (connectivePower o').right := by
  have hall : ∀ p ∈ [⟨2, 1⟩, ⟨4, 3⟩, ⟨6, 5⟩, ⟨7, 8⟩, ⟨10, 9⟩, ⟨11, 12⟩, (⟨13, 14⟩ : BindingPower)],
      ∀ q ∈ [⟨2, 1⟩, ⟨4, 3⟩, ⟨6, 5⟩, ⟨7, 8⟩, ⟨10, 9⟩, ⟨11, 12⟩, (⟨13, 14⟩ : BindingPower)],
        p.right ≤ q.left → p.right ≤ q.right := by decide
  exact hall _ (mem_powers o) _ (mem_powers o') h

theorem exists_of_power? {p : BindingPower} (h : power? e = some p) :
    ∃ op, p = connectivePower op ∧ isComparison e = Grammar.isComparison op := by
  cases e <;> cases h
  case matchExpr => exact ⟨none, rfl, rfl⟩
  case binaryOp op _ _ => exact ⟨some op, rfl, rfl⟩

/-- In front of an operator everything else has come to its end. -/
theorem rests_of_connective {t : Token} {op : Option BinaryOp} (h : connective? t = some op) :
    Rests b (some t) := by
  refine ⟨⟨?_, ?_, ?_⟩, ?_⟩
  · rintro ⟨⟩
    cases h
  · rintro ⟨⟩
    cases h
  · rintro ⟨⟩
    cases h
  · rintro s ⟨⟩
    cases h

/-- The right operand of an operator is read up to what stands behind it. -/
theorem Reads.rightOperand (op : Option BinaryOp) (hf : Reads false e ts)
    (h : rightNeedsParens (connectivePower op) e = false → Reads b e ts) {next : Option Token}
    (hnext : Rests b next) (hstop : stopsOperations (connectivePower op).right next) :
    Derivation b (.binary (connectivePower op).right) e.bare
      (unplaced (wrap (rightNeedsParens (connectivePower op) e) ts)) next := by
  cases hparens : rightNeedsParens (connectivePower op) e with
  | true =>
      have d := (hf.parenthesized b next).unary_of_primary hnext.postfixes
      exact d.binary_of_unary hstop
  | false =>
      have hcatch : isCatch e = false := by
        cases e <;> first | rfl | exact hparens
      have d := (h hparens).binary hcatch (connectivePower op).right [] e.bare next hnext ?_
        (.operationsNil hstop)
      · rwa [List.append_nil] at d
      intro q hq
      obtain ⟨op', rfl, -⟩ := exists_of_power? hq
      have hle : (connectivePower op).right ≤ (connectivePower op').left := by
        simpa [rightNeedsParens, hq] using hparens
      exact ⟨hle, fun o ho => Nat.lt_of_lt_of_le (hstop o ho) (right_le_right hle)⟩

/-- The left operand of an operator is read up to the operator. -/
theorem Reads.leftOperand {t : Token} {op : Option BinaryOp} (ht : connective? t = some op)
    (hf : Reads false e ts)
    (h : leftNeedsParens (connectivePower op) (Grammar.isComparison op) e = false → Reads b e ts)
    {minimum : Nat} (us : List (Located Token)) {e' : Located Expr} {next : Option Token}
    (hmin : minimum ≤ (connectivePower op).left) (hus : firstOf us next = some t)
    (d : ∀ comparison, (Grammar.isComparison op && comparison) = false →
      Derivation b (.operations minimum e.bare comparison) e' us next) :
    Derivation b (.binary minimum) e'
      (unplaced (wrap (leftNeedsParens (connectivePower op) (Grammar.isComparison op) e) ts) ++ us)
      next := by
  have hrests : Rests b (firstOf us next) := by
    rw [hus]
    exact rests_of_connective ht
  cases hparens : leftNeedsParens (connectivePower op) (Grammar.isComparison op) e with
  | true =>
      exact .binary ((hf.parenthesized b _).unary_of_primary hrests.postfixes) (d false (by simp))
  | false =>
      have hcatch : isCatch e = false := by
        cases e <;> first | rfl | exact hparens
      refine (h hparens).binary hcatch minimum us e' next hrests ?_ (d _ ?_)
      · intro q hq
        obtain ⟨op', rfl, -⟩ := exists_of_power? hq
        have hlt : (connectivePower op).left < (connectivePower op').right := by
          simp [leftNeedsParens, hq] at hparens
          exact hparens.1
        refine ⟨Nat.le_trans hmin (left_le_left hlt), fun o ho => ?_⟩
        rw [hus, Option.bind_some, ht] at ho
        obtain rfl := Option.some.inj ho
        exact hlt
      · cases hq : power? e with
        | none => simp [isComparison_of_power? hq]
        | some q =>
            simp [leftNeedsParens, hq] at hparens
            cases hcmp : Grammar.isComparison op with
            | false => rfl
            | true => simpa [hcmp] using hparens.2

/-- Operands on both sides of an operator keep together. -/
theorem reads_operator {l r e : Expr} {t : Token} {op : Option BinaryOp} {tl tr : List Token}
    (ht : connective? t = some op) (hpower : power? e = some (connectivePower op))
    (hcomparison : isComparison e = Grammar.isComparison op) (he : e.bare = join l.bare r.bare op)
    (hlf : Reads false l tl)
    (hl : leftNeedsParens (connectivePower op) (Grammar.isComparison op) l = false → Reads b l tl)
    (hrf : Reads false r tr) (hr : rightNeedsParens (connectivePower op) r = false → Reads b r tr) :
    Reads b e (wrap (leftNeedsParens (connectivePower op) (Grammar.isComparison op) l) tl ++
      t :: wrap (rightNeedsParens (connectivePower op) r) tr) := by
  refine .of_binary hpower fun minimum us e' next hnext hmin hstop d => ?_
  have dr := hrf.rightOperand op hr hnext hstop
  rw [hcomparison, he] at d
  have dl := hlf.leftOperand ht hl (t.unplaced :: (unplaced _ ++ us)) hmin rfl
    fun comparison hc => .operationsCons ht hmin hc dr d
  simpa using dl

end Printer

end ErlangFragment
