import ErlangFragment.Token

/-! Operators, how tightly they bind, and the tokens that stand for them. -/

namespace ErlangFragment

/-- Operators with two operands, from the loosest to the tightest. `=` is none of them, for its left
operand is a pattern. -/
inductive BinaryOp
  | send | orelse | andalso | eq | neq | exactEq | exactNeq | lt | ltEq | gt | gtEq | append
  | subtract
  | add | sub | bor | bxor | bsl | bsr | or | xor | mul | div | intDiv | rem | band | and
deriving DecidableEq

/-- Operators with one operand. All of them bind tighter than those with two. -/
inductive UnaryOp
  | plus | neg | bnot | not
deriving DecidableEq

/-- How tightly an operator holds its left and its right operand. An operand whose own operator
holds less tightly on that side needs parentheses. -/
structure BindingPower where
  left : Nat
  right : Nat
deriving DecidableEq

/-- The power of `=`, which groups to the right. -/
def matchPower : BindingPower := ⟨2, 1⟩

namespace BinaryOp

def token : BinaryOp → Token
  | send => .symbol .bang
  | orelse => .keyword .orelse
  | andalso => .keyword .andalso
  | eq => .symbol .equalEqual
  | neq => .symbol .slashEqual
  | exactEq => .symbol .equalColonEqual
  | exactNeq => .symbol .equalSlashEqual
  | lt => .symbol .less
  | ltEq => .symbol .equalLess
  | gt => .symbol .greater
  | gtEq => .symbol .greaterEqual
  | append => .symbol .plusPlus
  | subtract => .symbol .minusMinus
  | add => .symbol .plus
  | sub => .symbol .minus
  | bor => .keyword .bor
  | bxor => .keyword .bxor
  | bsl => .keyword .bsl
  | bsr => .keyword .bsr
  | or => .keyword .or
  | xor => .keyword .xor
  | mul => .symbol .star
  | div => .symbol .slash
  | intDiv => .keyword .div
  | rem => .keyword .rem
  | band => .keyword .band
  | and => .keyword .and

/-- Every operator, for finding one by its name. -/
def all : List BinaryOp :=
  [send, orelse, andalso, eq, neq, exactEq, exactNeq, lt, ltEq, gt, gtEq, append,
    subtract, add, sub, bor, bxor, bsl, bsr, or, xor, mul, div, intDiv, rem, band, and]

def text (op : BinaryOp) : String := op.token.text

/-- The operator that a token stands for between two operands. -/
def ofToken? : Token → Option BinaryOp
  | .symbol .bang => some send
  | .keyword .orelse => some orelse
  | .keyword .andalso => some andalso
  | .symbol .equalEqual => some eq
  | .symbol .slashEqual => some neq
  | .symbol .equalColonEqual => some exactEq
  | .symbol .equalSlashEqual => some exactNeq
  | .symbol .less => some lt
  | .symbol .equalLess => some ltEq
  | .symbol .greater => some gt
  | .symbol .greaterEqual => some gtEq
  | .symbol .plusPlus => some append
  | .symbol .minusMinus => some subtract
  | .symbol .plus => some add
  | .symbol .minus => some sub
  | .keyword .bor => some bor
  | .keyword .bxor => some bxor
  | .keyword .bsl => some bsl
  | .keyword .bsr => some bsr
  | .keyword .or => some or
  | .keyword .xor => some xor
  | .symbol .star => some mul
  | .symbol .slash => some div
  | .keyword .div => some intDiv
  | .keyword .rem => some rem
  | .keyword .band => some band
  | .keyword .and => some and
  | _ => none

/-- Comparisons do not chain. -/
def isComparison : BinaryOp → Bool
  | eq | neq | exactEq | exactNeq | lt | ltEq | gt | gtEq => true
  | _ => false

/-- Operators that group to the right hold their left operand more tightly. -/
def power : BinaryOp → BindingPower
  | send => ⟨2, 1⟩
  | orelse => ⟨4, 3⟩
  | andalso => ⟨6, 5⟩
  | eq | neq | exactEq | exactNeq | lt | ltEq | gt | gtEq => ⟨7, 8⟩
  | append | subtract => ⟨10, 9⟩
  | add | sub | bor | bxor | bsl | bsr | or | xor => ⟨11, 12⟩
  | mul | div | intDiv | rem | band | and => ⟨13, 14⟩

end BinaryOp

namespace UnaryOp

def token : UnaryOp → Token
  | plus => .symbol .plus
  | neg => .symbol .minus
  | bnot => .keyword .bnot
  | not => .keyword .not

def all : List UnaryOp := [plus, neg, bnot, not]

def text (op : UnaryOp) : String := op.token.text

/-- The operator that a token stands for before an operand. -/
def ofToken? : Token → Option UnaryOp
  | .symbol .plus => some plus
  | .symbol .minus => some neg
  | .keyword .bnot => some bnot
  | .keyword .not => some not
  | _ => none

end UnaryOp

end ErlangFragment
