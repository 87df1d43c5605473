import ErlangFragment.Text.Radix

/-! Binary floating point numbers of 64 bits, as sign, exponent and fraction, and the nearest such
number to a decimal, computed exactly. -/

namespace ErlangFragment

/-- A binary64 number by its three fields; the exponent is the stored one. -/
structure Binary64 where
  negative : Bool
  exponent : Fin 2048
  fraction : Fin 4503599627370496
deriving DecidableEq

namespace Binary64

/-- The implicit leading bit of a normal number. -/
def leadingBit : Nat := 4503599627370496

def zero (negative : Bool) : Binary64 := ⟨negative, 0, 0⟩

def infinity (negative : Bool) : Binary64 := ⟨negative, 2047, 0⟩

def quietNaN (negative : Bool) : Binary64 := ⟨negative, 2047, 2251799813685248⟩

def isNaN (x : Binary64) : Bool := x.exponent = 2047 && x.fraction ≠ 0

def isInfinite (x : Binary64) : Bool := x.exponent = 2047 && x.fraction = 0

def isFinite (x : Binary64) : Bool := x.exponent ≠ 2047

def isZero (x : Binary64) : Bool := x.exponent = 0 && x.fraction = 0

/-- The magnitude of a finite number is `significand * 2 ^ scale`. -/
def significand (x : Binary64) : Nat :=
  if x.exponent = 0 then x.fraction else leadingBit + x.fraction

def scale (x : Binary64) : Int := (max x.exponent.val 1 : Nat) - 1075

/-- Equality of numbers: zeros of either sign are equal, and what is not a number equals nothing. -/
def numericEq (x y : Binary64) : Bool :=
  !x.isNaN && !y.isNaN && ((x.isZero && y.isZero) || x = y)

/-- `num / den` to the nearest integer, a half to the even neighbour. -/
def roundedQuotient (num den : Nat) : Nat :=
  let q := num / den
  let r := num % den
  if 2 * r < den then q
  else if 2 * r = den then q + q % 2
  else q + 1

/-- Whether `2 ^ k ≤ num / den`. -/
def reaches (num den : Nat) (k : Int) : Bool :=
  den * Nat.pow 2 k.toNat ≤ num * Nat.pow 2 (-k).toNat

/-- The greatest `k` with `2 ^ k ≤ num / den`, for positive `num` and `den`. -/
def binaryOrder (num den : Nat) : Int :=
  let k : Int := (num.log2 : Int) - den.log2
  if reaches num den k then k else k - 1

/-- The number with the magnitude `m * 2 ^ q`, where `q` is least possible or `m` has all its
bits. -/
def assemble (negative : Bool) (m : Nat) (q : Int) : Binary64 :=
  if m < leadingBit then ⟨negative, 0, Fin.ofNat _ m⟩
  else
    let stored := (q + 1075).toNat
    if stored < 2047 then ⟨negative, Fin.ofNat _ stored, Fin.ofNat _ (m - leadingBit)⟩
    else infinity negative

/-- The number nearest to `num / den`, ties to even, for a positive `den`. -/
def ofRatio (negative : Bool) (num den : Nat) : Binary64 :=
  if num = 0 then zero negative
  else
    let q := max (binaryOrder num den - 52) (-1074)
    let m := roundedQuotient (num * Nat.pow 2 (-q).toNat) (den * Nat.pow 2 q.toNat)
    if m = 2 * leadingBit then assemble negative leadingBit (q + 1) else assemble negative m q

/-- The number nearest to `digits * 10 ^ exponent`. Decimals beyond every finite number, and those
below half the least one, are told by their order of magnitude alone. -/
def ofDecimal (negative : Bool) (digits : Nat) (exponent : Int) : Binary64 :=
  if digits = 0 then zero negative
  else
    let order : Int := (Radix.decimal digits).length + exponent
    if 310 < order then infinity negative
    else if order < -330 then zero negative
    else ofRatio negative (digits * Nat.pow 10 exponent.toNat) (Nat.pow 10 (-exponent).toNat)

end Binary64

end ErlangFragment
