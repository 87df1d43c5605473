import ErlangFragment.Token

/-! Lexemes: how far the longest token reaches from a place in the text, and which token its
characters denote. A lexeme is its first character and a number of further ones, so it is never
empty. -/

namespace ErlangFragment

/-- The kinds of lexemes. -/
inductive LexemeKind
  | word | var | decimal | based | float | character | string | quotedAtom | comment
  | symbol (mark : Symbol)
deriving DecidableEq

namespace Lexeme

/-- The length of an exponent, if the text starts with one. -/
def exponentLength : List Char → Nat
  | e :: cs =>
    if e = 'e' || e = 'E' then
      match cs with
      | s :: ds =>
        let n := (ds.takeWhile Char.isDigit).length
        if (s = '+' || s = '-') then (if n = 0 then 0 else n + 2)
        else if s.isDigit then n + 2
        else 0
      | [] => 0
    else 0
  | [] => 0

/-- The number that starts with a digit before `cs`. A decimal integer takes an underscore that
stands behind it along. -/
def number (cs : List Char) : LexemeKind × Nat :=
  let base := (cs.takeWhile Char.isDigit).length
  let whole := Radix.digitsLength Char.isDigit cs
  let based :=
    match cs.drop base with
    | '#' :: d :: ds =>
        if d.isAlphanum then some (base + 2 + Radix.digitsLength Char.isAlphanum ds) else none
    | _ => none
  match based with
  | some n => (.based, n)
  | none =>
    match cs.drop whole with
    | '.' :: d :: ds =>
      if d.isDigit then
        let fraction := Radix.digitsLength Char.isDigit ds
        (.float, whole + 2 + fraction + exponentLength (ds.drop fraction))
      else (.decimal, whole)
    | '_' :: _ => (.decimal, whole + 1)
    | _ => (.decimal, whole)

/-- The length of a quoted text and its closing quote. A backslash takes the next character along,
which may not be a line feed. -/
def quotedLength? (quote : Char) : List Char → Option Nat
  | [] => none
  | '\\' :: c :: cs => if c = '\n' then none else (quotedLength? quote cs).map (· + 2)
  | c :: cs =>
      if c = '\\' then none
      else if c = quote then some 1
      else (quotedLength? quote cs).map (· + 1)

/-- The length of what follows the `$` of a character literal. -/
def characterLength? : List Char → Option Nat
  | [] => none
  | c :: cs =>
    if c ≠ '\\' then some 1
    else
      match cs with
      | [] => none
      | e :: es =>
        if Radix.isDigit 8 e then some (((es.take 2).takeWhile (Radix.isDigit 8)).length + 2)
        else if e = 'x' then
          match es with
          | '{' :: ds =>
            let n := (ds.takeWhile (Radix.isDigit 16)).length
            if n ≠ 0 && (ds.drop n).head? = some '}' then some (n + 4) else none
          | h :: l :: _ => if Radix.isDigit 16 h && Radix.isDigit 16 l then some 4 else none
          | _ => none
        else if e = '^' then
          match es with
          | d :: _ => if d.isAlpha || d = '@' || d = '_' then some 3 else none
          | [] => none
        else some 2

/-- The longest lexeme that starts with `c` before `cs`: its kind and how many characters of `cs` it
takes. -/
def longest? (c : Char) (cs : List Char) : Option (LexemeKind × Nat) :=
  if c.isLower then some (.word, (cs.takeWhile isNameChar).length)
  else if isVariableStart c then some (.var, (cs.takeWhile isNameChar).length)
  else if c.isDigit then some (number cs)
  else if c = '$' then (characterLength? cs).map (LexemeKind.character, ·)
  else if c = '"' then (quotedLength? '"' cs).map (LexemeKind.string, ·)
  else if c = '\'' then (quotedLength? '\'' cs).map (LexemeKind.quotedAtom, ·)
  else if c = '%' then some (.comment, (cs.takeWhile (· ≠ '\n')).length)
  else (Symbol.longest? (c :: cs)).map fun s => (.symbol s, s.text.length - 1)

/-- The text between the first and the last character of a quoted lexeme. -/
def body (lexeme : List Char) : List Char := (lexeme.drop 1).dropLast

def wordToken (lexeme : List Char) : Token :=
  let word := String.ofList lexeme
  match Keyword.ofText? word with
  | some k => .keyword k
  | none => .atom word

def withoutUnderscores (lexeme : List Char) : List Char := lexeme.filter (· ≠ '_')

def basedToken? (lexeme : List Char) : Option Token :=
  let cs := withoutUnderscores lexeme
  (IntegerLiteral.ofBased? (cs.takeWhile (· ≠ '#')) ((cs.dropWhile (· ≠ '#')).drop 1)).map .integer

def characterToken? (lexeme : List Char) : Option Token :=
  match Quoted.decode? (lexeme.drop 1) with
  | some [c] => some (.char c)
  | _ => none

/-- The token that a lexeme denotes. Based integers and escapes can fail to denote one. -/
def token? (kind : LexemeKind) (lexeme : List Char) : Option Token :=
  match kind with
  | .word => some (wordToken lexeme)
  | .var => some (.var (String.ofList lexeme))
  | .decimal => some (.integer (.ofDecimal (withoutUnderscores lexeme)))
  | .based => basedToken? lexeme
  | .float => (Binary64.read? (withoutUnderscores lexeme)).map .float
  | .character => characterToken? lexeme
  | .string => (Quoted.decode? (body lexeme)).map fun cs => .string (String.ofList cs)
  | .quotedAtom => (Quoted.decode? (body lexeme)).map fun cs => .atom (String.ofList cs)
  | .comment => some .comment
  | .symbol s => some (.symbol s)

/-- The token that starts with `c` before `cs` and how many characters of `cs` it takes. -/
def next? (c : Char) (cs : List Char) : Option (Token × Nat) :=
  match longest? c cs with
  | none => none
  | some (kind, n) => (token? kind (c :: cs.take n)).map (·, n)

end Lexeme

end ErlangFragment
