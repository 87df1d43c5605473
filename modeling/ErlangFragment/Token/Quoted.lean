import ErlangFragment.Text.Class
import ErlangFragment.Text.Radix

/-! Escape sequences of quoted atoms, strings and character literals: writing a text so that it can
stand between quotes, and reading it back. -/

namespace ErlangFragment.Quoted

def hexEscape (c : Char) : List Char := '\\' :: 'x' :: '{' :: (Radix.upperHex c.toNat ++ ['}'])

/-- A character as it is written between the given quotes, or outside any. -/
def encodeChar (quote : Option Char) (c : Char) : List Char :=
  if c = '\\' then ['\\', '\\']
  else if c = '\n' then ['\\', 'n']
  else if c = '\r' then ['\\', 'r']
  else if c = '\t' then ['\\', 't']
  else if isControl c then hexEscape c
  else if quote = some c then ['\\', c]
  else [c]

def encode (quote : Option Char) (cs : List Char) : List Char := cs.flatMap (encodeChar quote)

/-- The text between its quotes. -/
def enclose (quote : Char) (text : String) : String :=
  String.ofList (quote :: (encode (some quote) text.toList ++ [quote]))

/-- The character of the given code point, if it has one. -/
def scalar? (n : Nat) : Option Char := if n.isValidChar then some (Char.ofNat n) else none

/-- The escapes that are one letter long. -/
def letterEscape? : Char → Option Char
  | 'n' => some '\n'
  | 'r' => some '\r'
  | 't' => some '\t'
  | 'v' => some '\x0b'
  | 'b' => some '\x08'
  | 'f' => some '\x0c'
  | 'e' => some '\x1b'
  | 's' => some ' '
  | 'd' => some '\x7f'
  | _ => none

/-- An escape of one to three octal digits, the first of them `c`. -/
def octalEscape? (c : Char) (cs : List Char) : Option (Char × Nat) :=
  let more := (cs.take 2).takeWhile (Radix.isDigit 8)
  (scalar? (Radix.value 8 (c :: more))).map (·, more.length)

/-- What follows `\x`: two hexadecimal digits, or any positive number of them in braces. -/
def hexEscape? : List Char → Option (Char × Nat)
  | '{' :: cs =>
    let digits := cs.takeWhile (· ≠ '}')
    if digits.length < cs.length && digits ≠ [] && digits.all (Radix.isDigit 16) then
      (scalar? (Radix.value 16 digits)).map (·, digits.length + 2)
    else none
  | h :: l :: _ =>
    if Radix.isDigit 16 h && Radix.isDigit 16 l then
      (scalar? (Radix.value 16 [h, l])).map (·, 2)
    else none
  | _ => none

/-- The character that a backslash followed by `c :: cs` stands for, and how many characters of `cs`
belong to the escape. -/
def escape? (c : Char) (cs : List Char) : Option (Char × Nat) :=
  match letterEscape? c with
  | some d => some (d, 0)
  | none =>
    if Radix.isDigit 8 c then octalEscape? c cs
    else if c = 'x' then hexEscape? cs
    else if c = '^' then
      match cs with
      | d :: _ => some (Char.ofNat (d.toNat % 32), 1)
      | [] => none
    else some (c, 0)

/-- The text that stands between quotes as `cs`. -/
def decode? : List Char → Option (List Char)
  | [] => some []
  | c :: cs =>
    if c = '\\' then
      match cs with
      | [] => none
      | d :: ds =>
        match escape? d ds with
        | none => none
        | some (e, n) => (decode? (ds.drop n)).map (e :: ·)
    else (decode? cs).map (c :: ·)
termination_by cs => cs.length
decreasing_by
  · simp only [List.length_cons, List.length_drop]
    omega
  · simp

end ErlangFragment.Quoted
