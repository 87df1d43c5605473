import ErlangFragment.Span
import ErlangFragment.Token.Lexeme

/-! Reading a text into located tokens. Blanks and comments are left out, and a text with a
malformed lexeme is refused as a whole, with the place and the cause. -/

namespace ErlangFragment

/-- What a quotation mark opens. -/
inductive Quotation
  | string | atom
deriving DecidableEq

def Quotation.text : Quotation → String
  | string => "string"
  | atom => "quoted atom"

/-- Why a text has no lexeme at some place. -/
inductive LexicalFault
  | unterminated (what : Quotation)
  | malformedEscape (what : Quotation)
  | malformedCharacter
  | malformedNumber
  | unexpected (c : Char)
deriving DecidableEq

def LexicalFault.reason : LexicalFault → String
  | unterminated what => "unterminated " ++ what.text
  | malformedEscape what => "malformed escape sequence in " ++ what.text
  | malformedCharacter => "malformed character literal"
  | malformedNumber => "malformed number literal"
  | unexpected c => "unexpected character '" ++ String.singleton c ++ "'"

/-- A fault with the part of the text that it covers. -/
structure LexicalError where
  fault : LexicalFault
  span : Span
deriving DecidableEq

namespace Lexer

/-- How many characters there are through the closing quote. A backslash hides the next
character. -/
def closingQuote? (quote : Char) : List Char → Option Nat
  | [] => none
  | '\\' :: _ :: cs => (closingQuote? quote cs).map (· + 2)
  | c :: cs => if c = quote then some 1 else (closingQuote? quote cs).map (· + 1)

/-- Characters that are taken for part of a malformed number. -/
def isNumberChar (c : Char) : Bool := c.isAlphanum || c = '#' || c = '_' || c = '.'

/-- The fault of a quotation that is no lexeme: either it has no closing quote, and the fault covers
the rest of the text, or an escape in it is malformed. -/
def quotationFault (what : Quotation) (quote : Char) (cs : List Char) : LexicalFault × Nat :=
  match closingQuote? quote cs with
  | none => (.unterminated what, cs.length)
  | some n => (.malformedEscape what, n)

/-- The fault at a place where no lexeme starts, with the number of characters after `c` that it
covers. -/
def faultAt (c : Char) (cs : List Char) : LexicalFault × Nat :=
  if c = '"' then quotationFault .string c cs
  else if c = '\'' then quotationFault .atom c cs
  else if c = '$' then (.malformedCharacter, min 1 cs.length)
  else if c.isDigit then (.malformedNumber, (cs.takeWhile isNumberChar).length)
  else (.unexpected c, 0)

/-- The span of `c` and the next `n` characters. -/
def spanOf (offset line : Nat) (c : Char) (cs : List Char) (n : Nat) : Span :=
  ⟨offset, offset + byteLength (c :: cs.take n), line⟩

/-- Whether a dot before this text ends a form. -/
def endsForm : List Char → Bool
  | [] => true
  | c :: _ => isWhiteSpace c || c = '%'

/-- Tokens as they stand in the result: a dot is told apart from a terminator by what follows it. -/
def settle (token : Token) (rest : List Char) : Token :=
  if token = .symbol .dot && endsForm rest then .terminator else token

/-- Reads the text that starts at a byte offset and a line, and gives its tokens and the line that
it ends on. -/
def scan (offset line : Nat) : List Char → Except LexicalError (List (Located Token) × Nat)
  | [] => .ok ([], line)
  | c :: cs =>
    if isLayout c then
      scan (offset + c.utf8Size) (if c = '\n' then advanceLine line 1 else line) cs
    else
      match Lexeme.next? c cs with
      | none =>
        let (fault, n) := faultAt c cs
        .error ⟨fault, spanOf offset line c cs n⟩
      | some (token, n) =>
        let span := spanOf offset line c cs n
        let stopLine := advanceLine line (newlines (c :: cs.take n))
        match scan span.stop stopLine (cs.drop n) with
        | .error e => .error e
        | .ok (tokens, endLine) =>
          if token = .comment then .ok (tokens, endLine)
          else .ok (⟨settle token (cs.drop n), span⟩ :: tokens, endLine)
termination_by cs => cs.length
decreasing_by
  · simp
  · simp only [List.length_cons, List.length_drop]
    omega

end Lexer

/-- The tokens of a text whose first character stands on `startLine`, with the line that the text
ends on. -/
def tokenize (source : String) (startLine : Nat) :
    Except LexicalError (List (Located Token) × Nat) :=
  Lexer.scan 0 startLine source.toList

/-- The tokens of a text that starts on line 1. -/
def lex (source : String) : Except LexicalError (List (Located Token)) :=
  (tokenize source 1).map Prod.fst

end ErlangFragment
