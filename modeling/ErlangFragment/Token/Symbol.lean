/-! The operators and punctuation marks that are written with special characters. -/

namespace ErlangFragment

/-- The symbols. The lexer takes the longest one that stands at a place. -/
inductive Symbol
  | plus | plusPlus | minus | minusMinus | star | slash | equal | equalEqual | slashEqual
  | equalColonEqual | equalSlashEqual | less | greater | equalLess | greaterEqual | bang | question
  | hash | leftParen | rightParen | leftBrace | rightBrace | leftBracket | rightBracket | lessLess
  | greaterGreater | comma | semicolon | colon | colonColon | colonEqual | pipe | pipePipe | arrow
  | fatArrow | leftArrow | leftDoubleArrow | dotDotDot | dotDot | dot
deriving DecidableEq

namespace Symbol

def text : Symbol → String
  | plus => "+"
  | plusPlus => "++"
  | minus => "-"
  | minusMinus => "--"
  | star => "*"
  | slash => "/"
  | equal => "="
  | equalEqual => "=="
  | slashEqual => "/="
  | equalColonEqual => "=:="
  | equalSlashEqual => "=/="
  | less => "<"
  | greater => ">"
  | equalLess => "=<"
  | greaterEqual => ">="
  | bang => "!"
  | question => "?"
  | hash => "#"
  | leftParen => "("
  | rightParen => ")"
  | leftBrace => "\x7b"
  | rightBrace => "\x7d"
  | leftBracket => "["
  | rightBracket => "]"
  | lessLess => "<<"
  | greaterGreater => ">>"
  | comma => ","
  | semicolon => ";"
  | colon => ":"
  | colonColon => "::"
  | colonEqual => ":="
  | pipe => "|"
  | pipePipe => "||"
  | arrow => "->"
  | fatArrow => "=>"
  | leftArrow => "<-"
  | leftDoubleArrow => "<="
  | dotDotDot => "..."
  | dotDot => ".."
  | dot => "."

def all : List Symbol :=
  [plus, plusPlus, minus, minusMinus, star, slash, equal, equalEqual, slashEqual, equalColonEqual,
    equalSlashEqual, less, greater, equalLess, greaterEqual, bang, question, hash, leftParen,
    rightParen, leftBrace, rightBrace, leftBracket, rightBracket, lessLess, greaterGreater, comma,
    semicolon, colon, colonColon, colonEqual, pipe, pipePipe, arrow, fatArrow, leftArrow,
    leftDoubleArrow, dotDotDot, dotDot, dot]

/-- The symbols that the text starts with. -/
def matching (cs : List Char) : List Symbol := all.filter fun s => s.text.toList.isPrefixOf cs

/-- The longest symbol that the text starts with. -/
def longest? (cs : List Char) : Option Symbol :=
  (matching cs).foldl
    (fun best s =>
      match best with
      | some t => if t.text.length < s.text.length then some s else best
      | none => some s)
    none

end Symbol

end ErlangFragment
