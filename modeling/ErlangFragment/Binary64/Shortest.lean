import ErlangFragment.Binary64

/-! The shortest decimal that reads back as a given binary64 number, and among those of that length
the nearest one. -/

namespace ErlangFragment

/-- The number `digits * 10 ^ exponent`. -/
structure Decimal where
  digits : Nat
  exponent : Int
deriving DecidableEq

/-- Which of two equally near decimals is taken. -/
inductive Tie
  | up
  | even
deriving DecidableEq

namespace Binary64

/-- The decimals that read back as a positive number, in quarters of its last binary place: those
from `low` to `high`, the bounds included if `closed`, with the number itself at `centre`. -/
structure Neighbourhood where
  low : Nat
  centre : Nat
  high : Nat
  closed : Bool
  quarter : Int

/-- Numbers reach half way to their neighbours, and the neighbour below a power of two is nearer. -/
def neighbourhood (x : Binary64) : Neighbourhood :=
  let m := x.significand
  let below := if m = leadingBit && 1 < x.exponent.val then 1 else 2
  ⟨4 * m - below, 4 * m, 4 * m + 2, m % 2 = 0, x.scale - 2⟩

namespace Neighbourhood

/-- The factors that bring quarters and multiples of `10 ^ j` to one unit. -/
def factors (n : Neighbourhood) (j : Int) : Nat × Nat :=
  (Nat.pow 2 n.quarter.toNat * Nat.pow 10 (-j).toNat,
    Nat.pow 10 j.toNat * Nat.pow 2 (-n.quarter).toNat)

/-- Whether `c * 10 ^ j` lies in the neighbourhood. -/
def holds (n : Neighbourhood) (j : Int) (c : Nat) : Bool :=
  let (a, b) := n.factors j
  if n.closed then n.low * a ≤ c * b && c * b ≤ n.high * a
  else n.low * a < c * b && c * b < n.high * a

/-- The nearest multiple of `10 ^ j` in the neighbourhood, if it has any. -/
def nearest? (tie : Tie) (n : Neighbourhood) (j : Int) : Option Nat :=
  let (a, b) := n.factors j
  let c := n.centre * a / b
  let r := n.centre * a % b
  let downHolds := n.holds j c
  let upHolds := n.holds j (c + 1)
  if downHolds && upHolds then
    if 2 * r < b then some c
    else if b < 2 * r then some (c + 1)
    else if tie = .even && c % 2 = 0 then some c
    else some (c + 1)
  else if downHolds then some c
  else if upHolds then some (c + 1)
  else none

/-- The first of the grids `10 ^ j`, `10 ^ (j - 1)`, … that meets the neighbourhood. -/
def search (tie : Tie) (n : Neighbourhood) : Nat → Int → Decimal
  | 0, j => ⟨n.centre * (n.factors j).1 / (n.factors j).2, j⟩
  | fuel + 1, j =>
    match n.nearest? tie j with
    | some c => ⟨c, j⟩
    | none => n.search tie fuel (j - 1)

end Neighbourhood

/-- The shortest decimal that reads back as the magnitude of a finite number. The search starts on a
grid too coarse for the number, and seventeen digits always suffice. -/
def shortest (tie : Tie) (x : Binary64) : Decimal :=
  if x.isZero then ⟨0, 0⟩
  else
    let bits : Int := x.significand.log2 + 2 + x.scale
    x.neighbourhood.search tie 24 (bits * 30103 / 100000 + 2)

end Binary64

end ErlangFragment
