/-! The reserved words. -/

namespace ErlangFragment

/-- The words that are no atoms. A trailing underscore tells a word apart from one that Lean
reserves. -/
inductive Keyword
  | after | and | andalso | band | begin | bnot | bor | bsl | bsr | bxor | case | catch_
  | div | end_
  | fun_ | if_ | not | of | or | orelse | receive | rem | try_ | when | xor
deriving DecidableEq

namespace Keyword

def text : Keyword → String
  | after => "after"
  | and => "and"
  | andalso => "andalso"
  | band => "band"
  | begin => "begin"
  | bnot => "bnot"
  | bor => "bor"
  | bsl => "bsl"
  | bsr => "bsr"
  | bxor => "bxor"
  | case => "case"
  | catch_ => "catch"
  | div => "div"
  | end_ => "end"
  | fun_ => "fun"
  | if_ => "if"
  | not => "not"
  | of => "of"
  | or => "or"
  | orelse => "orelse"
  | receive => "receive"
  | rem => "rem"
  | try_ => "try"
  | when => "when"
  | xor => "xor"

def all : List Keyword :=
  [after, and, andalso, band, begin, bnot, bor, bsl, bsr, bxor, case, catch_, div, end_, fun_, if_,
    not, of, or, orelse, receive, rem, try_, when, xor]

/-- The reserved word of the given spelling. -/
def ofText? (word : String) : Option Keyword := all.find? fun k => k.text = word

end Keyword

def isKeyword (word : String) : Bool := (Keyword.ofText? word).isSome

end ErlangFragment
