import ErlangFragment.Binary64.Shortest

/-! Decimal notations of binary64 numbers: reading, and writing in either of two styles. -/

namespace ErlangFragment.Binary64

/-- How a finite number is written: plainly if its leading digit stands for a power of ten from
`10 ^ leastPlain` to `10 ^ greatestPlain`, and with an exponent otherwise. -/
structure Style where
  leastPlain : Int
  greatestPlain : Int
  /-- Whether a mantissa of one digit gets a fraction of zero. -/
  pointed : Bool
  tie : Tie

/-- Floats in source text: a point is always there. -/
def sourceStyle : Style := ⟨-4, 15, true, .up⟩

/-- Numbers in JSON text. -/
def jsonStyle : Style := ⟨-5, 15, false, .even⟩

/-- `0.ddd`, `d.ddd` or `ddd.0`. -/
def plain (digits : List Char) (exponent : Int) : List Char :=
  let whole : Int := digits.length + exponent
  if 0 ≤ exponent then digits ++ List.replicate exponent.toNat '0' ++ ['.', '0']
  else if 0 < whole then digits.take whole.toNat ++ '.' :: digits.drop whole.toNat
  else '0' :: '.' :: List.replicate (-whole).toNat '0' ++ digits

/-- `d.ddde-n`. -/
def scientific (pointed : Bool) (digits : List Char) (exponent : Int) : List Char :=
  let mantissa :=
    match digits with
    | [d] => if pointed then [d, '.', '0'] else [d]
    | d :: ds => d :: '.' :: ds
    | [] => []
  mantissa ++ 'e' :: Radix.signedDecimal (digits.length + exponent - 1)

/-- A finite number in the style. -/
def write (style : Style) (x : Binary64) : List Char :=
  let decimal := x.shortest style.tie
  let digits := Radix.decimal decimal.digits
  let leading : Int := digits.length + decimal.exponent - 1
  let magnitude :=
    if decimal.digits = 0 || (style.leastPlain ≤ leading && leading ≤ style.greatestPlain) then
      plain digits decimal.exponent
    else scientific style.pointed digits decimal.exponent
  if x.negative then '-' :: magnitude else magnitude

/-- The text of a float in source text. It reads back as a float and never as an integer. -/
def text (x : Binary64) : String :=
  if x.isNaN then "NaN"
  else if x.isInfinite then (if x.negative then "-inf" else "inf")
  else String.ofList (x.write sourceStyle)

/-- An optional sign and what follows it. -/
def splitSign : List Char → Bool × List Char
  | '-' :: cs => (true, cs)
  | '+' :: cs => (false, cs)
  | cs => (false, cs)

/-- A decimal exponent after `e` or `E`; no exponent stands for zero. -/
def readExponent? : List Char → Option Int
  | [] => some 0
  | e :: cs =>
    if e = 'e' || e = 'E' then
      let (negative, ds) := splitSign cs
      if ds ≠ [] && ds.all Char.isDigit then
        some (if negative then -(Radix.value 10 ds : Int) else Radix.value 10 ds)
      else none
    else none

/-- Digits, then a point and more digits, then an exponent; a digit must stand before or after the
point. -/
def readMagnitude? (negative : Bool) (cs : List Char) : Option Binary64 :=
  let whole := cs.takeWhile Char.isDigit
  let rest := cs.dropWhile Char.isDigit
  let (fraction, rest) :=
    match rest with
    | '.' :: more => (more.takeWhile Char.isDigit, more.dropWhile Char.isDigit)
    | _ => ([], rest)
  if whole = [] && fraction = [] then none
  else
    (readExponent? rest).map fun exponent =>
      ofDecimal negative (Radix.value 10 (whole ++ fraction)) (exponent - fraction.length)

/-- The number that a decimal numeral or a name of infinity or of no number denotes. -/
def read? (cs : List Char) : Option Binary64 :=
  let (negative, rest) := splitSign cs
  let lower := rest.map Char.toLower
  if lower = ['n', 'a', 'n'] then some (quietNaN negative)
  else if lower = ['i', 'n', 'f'] || lower = ['i', 'n', 'f', 'i', 'n', 'i', 't', 'y'] then
    some (infinity negative)
  else readMagnitude? negative rest

end ErlangFragment.Binary64
