import ErlangFragment.Report

/-! The headlines that the program runs with, in place of the library that draws reports. -/

namespace ErlangFragment

namespace Headline

/-- Characters that end a line. -/
def endsLine (c : Char) : Bool :=
  [0x0a, 0x0b, 0x0c, 0x0d, 0x85, 0x2028, 0x2029].contains c.toNat

/-- The offsets of the first characters of the lines behind the first. A carriage return and a line
feed end a line together, and there is no line behind the last line end. -/
def laterLines (offset : Nat) : List Char → List Nat
  | [] => []
  | c :: cs =>
    if endsLine c && !(c = '\r' && cs.head? = some '\n') && cs ≠ [] then
      (offset + 1) :: laterLines (offset + 1) cs
    else laterLines (offset + 1) cs

/-- Line and column of the character with the given offset. -/
def placeOf (source : List Char) (offset : Nat) : Nat × Nat :=
  let reached := (laterLines 0 source).takeWhile (· ≤ offset)
  (reached.length + 1, offset - reached.getLastD 0 + 1)

/-- The offsets are taken to count characters. There is no headline of a drawing that reaches behind
the end of the source. -/
def ofCharacters : Headline := fun source drawing =>
  let size := source.length
  let start := drawing.labelStart
  let stop := drawing.labelStop
  if source = [] || size < drawing.offset || (start < stop && size < stop - 1) then none
  else some (placeOf source drawing.offset)

end Headline

/-- The report of an error in a source, as the program shows it. -/
def Report.ofDiagnostic (source : String) (d : Diagnostic) : Report :=
  Report.render Headline.ofCharacters source d

end ErlangFragment
