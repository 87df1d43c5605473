/-! Byte spans tagged with the line they start on, and values located by them. Line numbers stop
at `lastLine` instead of wrapping. -/

namespace ErlangFragment

/-- The bytes `start`, …, `stop - 1` of a text, the first of them on line `line`. -/
structure Span where
  start : Nat
  stop : Nat
  line : Nat
deriving DecidableEq, Inhabited

namespace Span

/-- The span of nothing in particular, left where a tree has been stripped of its spans. -/
def nowhere : Span := ⟨0, 0, 0⟩

/-- The span from `a` through `b`. It keeps the start and line of `a` and never shrinks below it. -/
def through (a b : Span) : Span := ⟨a.start, max b.stop a.stop, a.line⟩

/-- The empty span at the end of `s`. -/
def endpoint (s : Span) : Span := ⟨s.stop, s.stop, s.line⟩

end Span

/-- A value with the span it was read from. -/
structure Located (α : Type) where
  node : α
  span : Span
deriving DecidableEq

/-- The highest line number. -/
def lastLine : Nat := 4294967295

/-- The line `count` lines below `line`, or the last one. -/
def advanceLine (line count : Nat) : Nat := min lastLine (line + count)

end ErlangFragment
