import ErlangFragment.Binary64.Notation
import ErlangFragment.Token.Keyword
import ErlangFragment.Token.Quoted
import ErlangFragment.Token.Symbol

/-! Tokens and their text. Apart from comments, the text of a token that was read from source is
read as that token again. -/

namespace ErlangFragment

/-- An integer as it was written. Integers that do not fit 63 bits and a sign keep their digits:
`123456789012345678901` or `16#ABCDEF0123456789ABC`. -/
inductive IntegerLiteral
  | small (value : Int)
  | big (text : String)
deriving DecidableEq

namespace IntegerLiteral

def text : IntegerLiteral → String
  | small n => String.ofList (Radix.signedDecimal n)
  | big t => t

/-- The least positive number too large for a small literal. -/
def smallLimit : Nat := 9223372036854775808

/-- The literal written with these decimal digits. -/
def ofDecimal (digits : List Char) : IntegerLiteral :=
  let n := Radix.value 10 digits
  if n < smallLimit then small n else big (String.ofList (digits.dropWhile (· = '0')))

/-- The literal written with these digits in the base that the decimal digits `base` give. Bases go
from 2 to 36. -/
def ofBased? (base digits : List Char) : Option IntegerLiteral :=
  let b := Radix.value 10 base
  if 2 ≤ b && b ≤ 36 && digits.all (Radix.isDigit b) then
    let n := Radix.value b digits
    if n < smallLimit then some (small n)
    else some (big (String.ofList (Radix.decimal b ++ '#' :: digits)))
  else none

end IntegerLiteral

/-- What a text is cut into. Adjacent strings are tokens of their own, and a minus sign is never
part of a number. -/
inductive Token
  | keyword (word : Keyword)
  | integer (literal : IntegerLiteral)
  | float (value : Binary64)
  | char (value : Char)
  | string (text : String)
  | atom (name : String)
  | var (name : String)
  | symbol (mark : Symbol)
  /-- The `.` that ends a form. -/
  | terminator
  | comment
deriving DecidableEq

/-- Atoms that need no quotes. -/
def isPlainAtom (name : String) : Bool :=
  match name.toList with
  | [] => false
  | c :: cs => c.isLower && cs.all isNameChar && !isKeyword name

/-- The text of an atom, in quotes where the name alone would be read as something else. -/
def atomText (name : String) : String :=
  if isPlainAtom name then name else Quoted.enclose '\'' name

def stringText (text : String) : String := Quoted.enclose '"' text

/-- The text of a character literal. A blank would be invisible behind the dollar sign, so it is
escaped. -/
def charText (c : Char) : String :=
  if c = ' ' then "$\\s" else String.ofList ('$' :: Quoted.encodeChar none c)

def Token.text : Token → String
  | keyword k => k.text
  | integer n => n.text
  | float x => x.text
  | char c => charText c
  | string s => stringText s
  | atom name => atomText name
  | var name => name
  | symbol s => s.text
  | terminator => "."
  | comment => "comment"

end ErlangFragment
