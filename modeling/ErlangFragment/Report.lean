import ErlangFragment.Diagnostic
import ErlangFragment.Text.Class

/-! Reports of errors. An error whose span lies inside the source is drawn there, and any other one
is plain text. A library draws the reports: it decides which line and column a drawing is headed
with. The line that is printed in place of a drawing that cannot be written is left out. -/

namespace ErlangFragment

/-- What is handed to the library that draws. The offsets are those of the span, and count bytes. -/
structure Drawing where
  title : String
  /-- What the headline points at. -/
  offset : Nat
  /-- Where the part of the source begins that the label stands at. -/
  labelStart : Nat
  labelStop : Nat
  label : String
deriving DecidableEq

/-- The drawing of an error that has a span. -/
def Diagnostic.drawing? : Diagnostic → Option Drawing
  | lexical reason span => some ⟨"lex error", span.start, span.start, span.stop, reason⟩
  | grammar _ reason span => some ⟨"parse error", span.start, span.start, span.stop, reason⟩
  | analysis kind span =>
    some ⟨"analysis error", span.start, span.start, span.stop,
      "cannot classify " ++ kind ++ " node"⟩
  | io _ _ => none
  | config _ _ => none

/-- The text of a report without a drawing. -/
def Diagnostic.plainReport : Diagnostic → String
  | io text path => "error[io]: " ++ text ++ "\n  --> " ++ path ++ "\n"
  | config text path => "error[config]: " ++ text ++ "\n  --> " ++ path ++ "\n"
  | d => "error: " ++ d.message ++ "\n"

/-- Line and column, both from one, that a drawing of the source is headed with. There may be
none. -/
abbrev Headline := List Char → Drawing → Option (Nat × Nat)

/-- What is shown of an error: a drawing with the place in its headline, or text. -/
inductive Report
  | located (drawing : Drawing) (place : Option (Nat × Nat))
  | plain (text : String)
deriving DecidableEq

/-- The report of an error in a source. -/
def Report.render (headline : Headline) (source : String) (d : Diagnostic) : Report :=
  match d.drawing? with
  | some drawing =>
    if drawing.labelStop ≤ byteLength source.toList then
      .located drawing (headline source.toList drawing)
    else .plain d.plainReport
  | none => .plain d.plainReport

end ErlangFragment
