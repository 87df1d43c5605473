/-! Digits in bases up to 36: the value of a digit string, the digit string of a value, and digits
with underscores between them. -/

namespace ErlangFragment.Radix

/-- Decimal digits count from 0 and letters of either case from 10. -/
def digitValue? (c : Char) : Option Nat :=
  if c.isDigit then some (c.toNat - 48)
  else if c.isUpper then some (c.toNat - 55)
  else if c.isLower then some (c.toNat - 87)
  else none

def isDigit (base : Nat) (c : Char) : Bool :=
  match digitValue? c with
  | some d => d < base
  | none => false

/-- The number that the digits denote; a character that is no digit counts as zero. -/
def value (base : Nat) (digits : List Char) : Nat :=
  digits.foldl (fun v c => v * base + (digitValue? c).getD 0) 0

def decimal (n : Nat) : List Char := Nat.toDigits 10 n

def upperHex (n : Nat) : List Char := (Nat.toDigits 16 n).map Char.toUpper

/-- Decimal digits, after a minus sign if the number is negative. -/
def signedDecimal : Int → List Char
  | .ofNat n => decimal n
  | .negSucc n => '-' :: decimal (n + 1)

/-- How much more of a digit sequence follows one of its digits: digits of the class, and single
underscores with a digit after them. -/
def digitsLength (isDigit : Char → Bool) : List Char → Nat
  | [] => 0
  | c :: cs =>
    if isDigit c then digitsLength isDigit cs + 1
    else if c = '_' && (cs.head?.any isDigit) then digitsLength isDigit cs + 1
    else 0

end ErlangFragment.Radix
