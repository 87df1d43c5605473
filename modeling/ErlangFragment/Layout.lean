import ErlangFragment.Token

/-! Laid out text: tokens with blanks and line breaks between them. The text of a layout is all that
is ever printed, so what is printed is known token by token. -/

namespace ErlangFragment

/-- A piece of laid out text. -/
inductive Piece
  | token (t : Token)
  | blank
  /-- A new line, indented by four blanks per level. -/
  | newline (level : Nat)
deriving DecidableEq

/-- Pieces one after another. -/
abbrev Layout := List Piece

/-- The characters of a piece. -/
def Piece.text : Piece → String
  | token t => t.text
  | blank => " "
  | newline level => String.ofList ('\n' :: List.replicate (4 * level) ' ')

namespace Layout

/-- The characters of a layout. -/
def text (l : Layout) : String := l.foldl (fun s p => s ++ p.text) ""

/-- The tokens of a layout, in order. -/
def tokens (l : Layout) : List Token :=
  l.filterMap fun p =>
    match p with
    | .token t => some t
    | _ => none

/-- Layouts after each other, with the separator between any two. -/
def join (separator : Layout) : List Layout → Layout
  | [] => []
  | [l] => l
  | l :: ls => l ++ separator ++ join separator ls

def symbol (s : Symbol) : Layout := [.token (.symbol s)]

def keyword (k : Keyword) : Layout := [.token (.keyword k)]

/-- A symbol between two blanks. -/
def spaced (t : Token) : Layout := [.blank, .token t, .blank]

def commas (ls : List Layout) : Layout := join [.token (.symbol .comma), .blank] ls

def enclose (opening closing : Symbol) (l : Layout) : Layout :=
  symbol opening ++ l ++ symbol closing

def parens (l : Layout) : Layout := enclose .leftParen .rightParen l

/-- The layout in parentheses, if the condition holds. -/
def parensIf (b : Bool) (l : Layout) : Layout := if b then parens l else l

/-- Each layout on a line of its own, with the separator behind all but the last. -/
def lines (level : Nat) (separator : Symbol) (ls : List Layout) : Layout :=
  join (symbol separator) (ls.map fun l => .newline level :: l)

end Layout

end ErlangFragment
