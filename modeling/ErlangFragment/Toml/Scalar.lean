import ErlangFragment.Binary64
import ErlangFragment.Toml

/-! Strings, numbers and dates of TOML. Each reader gives what it has read and the rest of the text,
or nothing where the text does not start with such a thing. -/

namespace ErlangFragment.Toml

/-- A part of a text and the rest. -/
abbrev Reader (α : Type) := List Char → Option (α × List Char)

def isBlank (c : Char) : Bool := c = ' ' || c = '\t'

/-- Characters of comments and single line strings: all but controls, save the tab. -/
def isPrintable (c : Char) : Bool := c = '\t' || (0x20 ≤ c.toNat && c.toNat ≠ 0x7f)

def skipBlanks (cs : List Char) : List Char := cs.dropWhile isBlank

/-- A line feed, alone or after a carriage return. -/
def newline? : List Char → Option (List Char)
  | '\n' :: cs => some cs
  | '\r' :: '\n' :: cs => some cs
  | _ => none

/-! ### Strings -/

/-- A character by its code point, in exactly `n` hexadecimal digits. -/
def unicodeEscape? (n : Nat) (cs : List Char) : Option Char :=
  let digits := cs.take n
  let code := Radix.value 16 digits
  if digits.length = n && digits.all (Radix.isDigit 16) && code.isValidChar then
    some (Char.ofNat code)
  else none

/-- The character that a backslash before the text stands for, and how many characters belong to
it. -/
def escape? : List Char → Option (Char × Nat)
  | 'b' :: _ => some ('\x08', 1)
  | 't' :: _ => some ('\t', 1)
  | 'n' :: _ => some ('\n', 1)
  | 'f' :: _ => some ('\x0c', 1)
  | 'r' :: _ => some ('\r', 1)
  | '"' :: _ => some ('"', 1)
  | '\\' :: _ => some ('\\', 1)
  | 'u' :: cs => (unicodeEscape? 4 cs).map (·, 5)
  | 'U' :: cs => (unicodeEscape? 8 cs).map (·, 9)
  | _ => none

/-- The rest of a string on one line, behind its opening quotation mark. -/
def basicBody : Reader (List Char)
  | [] => none
  | c :: cs =>
    if c = '"' then some ([], cs)
    else if c = '\\' then
      match escape? cs with
      | none => none
      | some (d, n) => (basicBody (cs.drop n)).map fun (text, rest) => (d :: text, rest)
    else if isPrintable c then (basicBody cs).map fun (text, rest) => (c :: text, rest)
    else none
termination_by cs => cs.length
decreasing_by
  · simp only [List.length_cons, List.length_drop]
    omega
  · simp

/-- The rest of a string without escapes on one line. -/
def literalBody : Reader (List Char)
  | [] => none
  | c :: cs =>
    if c = '\'' then some ([], cs)
    else if isPrintable c then (literalBody cs).map fun (text, rest) => (c :: text, rest)
    else none

/-- How many quotation marks close a string at the start of a text, if three to five stand there.
The ones above three belong to the string. -/
def closing? (quote : Char) (cs : List Char) : Option Nat :=
  let n := (cs.takeWhile (· = quote)).length
  if 3 ≤ n then some n else none

/-- The number of characters up to the next one that is neither a blank nor part of a line break. -/
def spaceLength : List Char → Nat
  | '\r' :: '\n' :: cs => spaceLength cs + 2
  | c :: cs => if isBlank c || c = '\n' then spaceLength cs + 1 else 0
  | [] => 0

/-- The number of characters that a backslash at the end of a line skips. -/
def continuation? (cs : List Char) : Option Nat :=
  if (newline? (skipBlanks cs)).isSome then some (spaceLength cs) else none

/-- The rest of a string on several lines. -/
def multilineBody (quote : Char) (escapes : Bool) : Reader (List Char)
  | [] => none
  | c :: cs =>
    if c = quote then
      match closing? quote (c :: cs) with
      | some n =>
        if n ≤ 5 then some (List.replicate (n - 3) quote, (c :: cs).drop n) else none
      | none => (multilineBody quote escapes cs).map fun (text, rest) => (c :: text, rest)
    else if c = '\\' && escapes then
      match continuation? cs with
      | some n => multilineBody quote escapes (cs.drop n)
      | none =>
        match escape? cs with
        | none => none
        | some (d, n) =>
          (multilineBody quote escapes (cs.drop n)).map fun (text, rest) => (d :: text, rest)
    else if c = '\r' then
      if cs.head? = some '\n' then multilineBody quote escapes cs else none
    else if isPrintable c || c = '\n' then
      (multilineBody quote escapes cs).map fun (text, rest) => (c :: text, rest)
    else none
termination_by cs => cs.length
decreasing_by all_goals simp only [List.length_cons, List.length_drop]; omega

/-- A line break right behind the opening marks is not part of the string. -/
def dropNewline (cs : List Char) : List Char := (newline? cs).getD cs

/-- A string on one line, as keys may be too. -/
def lineString : Reader String
  | '"' :: cs => (basicBody cs).map fun (text, rest) => (String.ofList text, rest)
  | '\'' :: cs => (literalBody cs).map fun (text, rest) => (String.ofList text, rest)
  | _ => none

def string : Reader String
  | '"' :: '"' :: '"' :: cs =>
    (multilineBody '"' true (dropNewline cs)).map fun (text, rest) => (String.ofList text, rest)
  | '\'' :: '\'' :: '\'' :: cs =>
    (multilineBody '\'' false (dropNewline cs)).map fun (text, rest) => (String.ofList text, rest)
  | cs => lineString cs

/-! ### Numbers -/

/-- A digit and all further ones, with underscores between digits left out. -/
def digits (isDigit : Char → Bool) : Reader (List Char)
  | c :: cs =>
    if isDigit c then
      let n := Radix.digitsLength isDigit cs
      some (c :: (cs.take n).filter (· ≠ '_'), cs.drop n)
    else none
  | [] => none

/-- A decimal number, which has no leading zero unless it is zero. -/
def unsigned : Reader Nat
  | '0' :: cs => some (0, cs)
  | cs => (digits Char.isDigit cs).map fun (ds, rest) => (Radix.value 10 ds, rest)

def sign : List Char → Bool × List Char
  | '-' :: cs => (true, cs)
  | '+' :: cs => (false, cs)
  | cs => (false, cs)

/-- Integers have 64 bits. -/
def inRange (n : Int) : Bool := -9223372036854775808 ≤ n && n ≤ 9223372036854775807

def basedInteger (base : Nat) (cs : List Char) : Option (Value × List Char) :=
  match digits (Radix.isDigit base) cs with
  | some (ds, rest) =>
    let n : Int := Radix.value base ds
    if inRange n then some (.integer n, rest) else none
  | none => none

def integer : Reader Value
  | '0' :: 'x' :: cs => basedInteger 16 cs
  | '0' :: 'o' :: cs => basedInteger 8 cs
  | '0' :: 'b' :: cs => basedInteger 2 cs
  | cs =>
    let (negative, more) := sign cs
    match unsigned more with
    | some (n, rest) =>
      let m : Int := if negative then -(n : Int) else n
      if inRange m then some (.integer m, rest) else none
    | none => none

/-- A power of ten after its mark. -/
def exponent : Reader Int
  | e :: cs =>
    if e = 'e' || e = 'E' then
      let (negative, more) := sign cs
      (digits Char.isDigit more).map fun (ds, rest) =>
        (if negative then -(Radix.value 10 ds : Int) else Radix.value 10 ds, rest)
    else none
  | [] => none

/-- The digits behind a point. -/
def fraction : Reader (List Char)
  | '.' :: cs => digits Char.isDigit cs
  | _ => none

/-- The float `significand * 10 ^ power`. One above every finite number is refused, and one below
all of them is not. -/
def finiteOrBelow? (negative : Bool) (significand : Nat) (power : Int) : Option Value :=
  if Binary64.ofDecimal negative significand power = Binary64.infinity false then none
  else some .float

/-- A float has a fraction or an exponent, or is one of the names for infinity and no number. -/
def float : Reader Value := fun cs =>
  let (negative, more) := sign cs
  match more with
  | 'i' :: 'n' :: 'f' :: rest => some (.float, rest)
  | 'n' :: 'a' :: 'n' :: rest => some (.float, rest)
  | _ => do
    let (whole, rest) ← unsigned more
    match fraction rest with
    | some (ds, rest) =>
      let (power, rest) := (exponent rest).getD (0, rest)
      let significand := whole * Nat.pow 10 ds.length + Radix.value 10 ds
      (finiteOrBelow? negative significand (power - ds.length)).map (·, rest)
    | none =>
      let (power, rest) ← exponent rest
      (finiteOrBelow? negative whole power).map (·, rest)

/-! ### Dates and times -/

/-- A number of exactly `n` digits. -/
def fixed (n : Nat) : Reader Nat := fun cs =>
  let ds := cs.take n
  if ds.length = n && ds.all Char.isDigit then some (Radix.value 10 ds, cs.drop n) else none

/-- A number of two digits that is at most `greatest`, after the given character. -/
def two (after : Char) (greatest : Nat) : Reader Nat
  | c :: cs =>
    match fixed 2 cs with
    | some (n, rest) => if c = after && n ≤ greatest then some (n, rest) else none
    | none => none
  | [] => none

def isLeapYear (year : Nat) : Bool := year % 4 = 0 && (year % 100 ≠ 0 || year % 400 = 0)

def monthLength (year month : Nat) : Nat :=
  if month = 2 then (if isLeapYear year then 29 else 28)
  else if month = 4 || month = 6 || month = 9 || month = 11 then 30
  else 31

def date : List Char → Option (List Char) := fun cs => do
  let (year, cs) ← fixed 4 cs
  let (month, cs) ← two '-' 12 cs
  let (day, cs) ← two '-' (monthLength year month) cs
  if month = 0 || day = 0 then none else some cs

/-- Hours, minutes and seconds, and a fraction of the seconds. -/
def time : List Char → Option (List Char) := fun cs => do
  let (hour, cs) ← fixed 2 cs
  let (_, cs) ← two ':' 59 cs
  let (_, cs) ← two ':' 60 cs
  if 23 < hour then none
  else
    match cs with
    | '.' :: c :: rest => some (if c.isDigit then rest.dropWhile Char.isDigit else cs)
    | _ => some cs

def offset : List Char → Option (List Char)
  | 'Z' :: cs => some cs
  | 'z' :: cs => some cs
  | cs => do
    let (_, rest) ← (two '+' 23 cs <|> two '-' 23 cs)
    let (_, rest) ← two ':' 59 rest
    some rest

def dateTime : Reader Value := fun cs =>
  match date cs with
  | none => (time cs).map (Value.dateTime, ·)
  | some [] => some (.dateTime, [])
  | some (c :: rest) =>
    let whole : Option (List Char) :=
      if c = 'T' || c = 't' || c = ' ' then (time rest).map fun rest => (offset rest).getD rest
      else none
    some (.dateTime, whole.getD (c :: rest))

def keyword (word : String) (value : Value) : Reader Value := fun cs =>
  if word.toList.isPrefixOf cs then some (value, cs.drop word.length) else none

/-- A value that holds no others. -/
def scalar : Reader Value := fun cs =>
  (string cs).map (fun (s, rest) => (Value.string s, rest)) <|> dateTime cs <|> float cs <|>
    integer cs
    <|> keyword "true" (.boolean true) cs <|> keyword "false" (.boolean false) cs

end ErlangFragment.Toml
