import ErlangFragment.Grammar.Error

/-! Readers of located tokens. The grammar is written over the steps of a reader, so that one text
of it is both the parser and the machine that the parser is compared with. -/

namespace ErlangFragment

/-- What a grammar does with the tokens and the mode. -/
class Reader (m : Type → Type) where
  next? : m (Option (Located Token))
  peek? : m (Option Token)
  /-- The next two tokens. -/
  peekTwo? : m (Option Token × Option Token)
  /-- The span of the next token, or the end of the last one. -/
  position : m Span
  /-- The span of the token read last. -/
  previous : m Span
  /-- Reads one token, whatever it is. -/
  advance : m Unit
  fail {α : Type} (fault : GrammarFault) (span : Span) : m α
  /-- Fails at the next token. -/
  unexpected {α : Type} (what : Expectation) : m α
  /-- Whether a colon separates the patterns of a catch clause instead of forming a remote call. -/
  colonSeparates : m Bool
  /-- Runs with the construct as the one that errors name. -/
  inContext {α : Type} (context : GrammarContext) (p : m α) : m α
  withColonSeparating {α : Type} (b : Bool) (p : m α) : m α
  /-- Runs with a bound on the rounds of a loop or on the depth of calls. -/
  bounded {α : Type} (p : Nat → m α) : m α
  /-- What a loop that has come to `a` gives if it has no round left. -/
  lastRound {α : Type} (a : α) : m α
  /-- What a rule gives if no call is left. -/
  lastCall {α : Type} : m α

namespace Reader

variable {m : Type → Type} [Monad m] [Reader m] {α : Type}

/-- Whether the token is the next one. -/
def check (t : Token) : m Bool := do
  return (← peek?) = some t

/-- Reads the token if it is the next one. -/
def eat (t : Token) : m Bool := do
  if ← check t then
    advance
    return true
  else return false

/-- Reads the token and gives its span. -/
def expect (t : Token) : m Span := do
  if ← eat t then previous else unexpected (.token t)

/-- Reads an atom and gives its name. -/
def expectAtom : m (Located String) := do
  match ← next? with
  | some ⟨.atom name, span⟩ =>
    advance
    return ⟨name, span⟩
  | _ => unexpected .atom

/-- Fails if any token is left. -/
def expectEnd : m Unit := do
  match ← next? with
  | some ⟨t, span⟩ => fail (.afterTerminator t) span
  | none => return ()

/-- At most `n` times the separator and what `p` reads. -/
def more (separator : Token) (p : m α) : Nat → m (List α)
  | 0 => lastRound []
  | n + 1 => do
    if ← eat separator then
      let a ← p
      let as ← more separator p n
      return a :: as
    else return []

/-- One or more times what `p` reads, with separators between. -/
def separated (separator : Token) (p : m α) : m (List α) := do
  let a ← p
  let as ← bounded (more separator p)
  return a :: as

/-- The result of `p` with the span from where it starts to where it stops. -/
def spanned (p : m α) : m (Located α) := do
  let start ← position
  let a ← p
  return ⟨a, start.through (← previous)⟩

end Reader

end ErlangFragment
