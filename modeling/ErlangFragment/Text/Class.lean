/-! Classes of characters that the lexical rules refer to, and the size of a text in bytes. -/

namespace ErlangFragment

/-- Blanks between tokens: space, tab, line feed, form feed and carriage return. -/
def isLayout (c : Char) : Bool :=
  c = ' ' || c = '\t' || c = '\n' || c = '\x0c' || c = '\r'

/-- The code points with the Unicode property White_Space, as inclusive ranges. -/
def whiteSpaceRanges : List (Nat × Nat) :=
  [(0x09, 0x0d), (0x20, 0x20), (0x85, 0x85), (0xa0, 0xa0), (0x1680, 0x1680), (0x2000, 0x200a),
    (0x2028, 0x2029), (0x202f, 0x202f), (0x205f, 0x205f), (0x3000, 0x3000)]

/-- The Unicode property White_Space. -/
def isWhiteSpace (c : Char) : Bool :=
  whiteSpaceRanges.any fun (low, high) => low ≤ c.toNat && c.toNat ≤ high

/-- The Unicode category Cc: the C0 and C1 controls and delete. -/
def isControl (c : Char) : Bool :=
  c.toNat < 0x20 || (0x7f ≤ c.toNat && c.toNat ≤ 0x9f)

/-- Characters that may follow the first one of a plain atom or a variable. -/
def isNameChar (c : Char) : Bool := c.isAlphanum || c = '_' || c = '@'

/-- Characters a variable may start with. -/
def isVariableStart (c : Char) : Bool := c.isUpper || c = '_'

/-- The number of bytes that UTF-8 takes for the text. -/
def byteLength : List Char → Nat
  | [] => 0
  | c :: cs => c.utf8Size + byteLength cs

/-- The number of line feeds in the text. -/
def newlines (cs : List Char) : Nat := cs.count '\n'

end ErlangFragment
