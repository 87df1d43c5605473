import ErlangFragment.Binary64.Notation

/-! JSON values, their members in the order in which they were given, and their indented text. -/

namespace ErlangFragment

/-- A value. Integers are exact, whatever their size. -/
inductive Json where
  | null
  | bool (value : Bool)
  | integer (value : Int)
  | float (value : Binary64)
  | string (text : String)
  | array (items : List Json)
  | object (members : List (String × Json))

namespace Json

def nat (n : Nat) : Json := integer n

/-- A character between quotes. Only what must be escaped is. -/
def escapeChar (c : Char) : List Char :=
  if c = '"' then ['\\', '"']
  else if c = '\\' then ['\\', '\\']
  else if c = '\x08' then ['\\', 'b']
  else if c = '\t' then ['\\', 't']
  else if c = '\n' then ['\\', 'n']
  else if c = '\x0c' then ['\\', 'f']
  else if c = '\r' then ['\\', 'r']
  else if c.toNat < 0x20 then
    ['\\', 'u', '0', '0', (c.toNat / 16).digitChar, (c.toNat % 16).digitChar]
  else [c]

/-- A string between double quotes. -/
def quoted (text : String) : String :=
  String.ofList ('"' :: (text.toList.flatMap escapeChar ++ ['"']))

/-- A number, or `null` for what JSON has no number for. -/
def floatText (x : Binary64) : String :=
  if x.isFinite then String.ofList (x.write Binary64.jsonStyle) else "null"

/-- A new line, indented by two blanks per level. -/
def lineBreak (level : Nat) : String := "\n" ++ String.ofList (List.replicate (2 * level) ' ')

mutual

/-- The text of a value that stands at a level of indentation. -/
def textAt (level : Nat) : Json → String
  | .null => "null"
  | .bool b => if b then "true" else "false"
  | .integer n => String.ofList (Radix.signedDecimal n)
  | .float x => floatText x
  | .string s => quoted s
  | .array [] => "[]"
  | .array (j :: js) =>
    "[" ++ lineBreak (level + 1) ++ textAt (level + 1) j ++ itemsText (level + 1) js
      ++ lineBreak level ++ "]"
  | .object [] => "\x7b\x7d"
  | .object ((k, j) :: ms) =>
    "\x7b" ++ lineBreak (level + 1) ++ quoted k ++ ": " ++ textAt (level + 1) j
      ++ membersText (level + 1) ms ++ lineBreak level ++ "\x7d"

/-- The items after the first. -/
def itemsText (level : Nat) : List Json → String
  | [] => ""
  | j :: js => "," ++ lineBreak level ++ textAt level j ++ itemsText level js

/-- The members after the first. -/
def membersText (level : Nat) : List (String × Json) → String
  | [] => ""
  | (k, j) :: ms =>
    "," ++ lineBreak level ++ quoted k ++ ": " ++ textAt level j ++ membersText level ms

end

/-- The indented text of a value. -/
def text (j : Json) : String := textAt 0 j

/-- Puts a member before the first one with a greater key. -/
def insertMember (key : String) (value : Json) : List (String × Json) → List (String × Json)
  | [] => [(key, value)]
  | (k, v) :: ms =>
      if key < k then (key, value) :: (k, v) :: ms else (k, v) :: insertMember key value ms

mutual

/-- The value with the members of every object in the order of their keys. -/
def sorted : Json → Json
  | .array items => .array (sortedItems items)
  | .object members => .object (sortedMembers members)
  | .null => .null
  | .bool b => .bool b
  | .integer n => .integer n
  | .float x => .float x
  | .string s => .string s

def sortedItems : List Json → List Json
  | [] => []
  | j :: js => sorted j :: sortedItems js

def sortedMembers : List (String × Json) → List (String × Json)
  | [] => []
  | (k, j) :: ms => insertMember k (sorted j) (sortedMembers ms)

end

end Json

end ErlangFragment
