import ErlangFragment.Grammar.Form

/-! Recursive descent with registers. The parser is a machine here: a position in the tokens and the
mode are registers that every step may change, and a failure leaves them as they are. A part of the
grammar with a mode of its own puts the old one back when it is done. Nothing bounds the rounds of a
loop or the depth of calls but the fuel of a run, and what needs more of it has no result. -/

namespace ErlangFragment

/-- What the machine changes while it reads. -/
structure Registers where
  /-- How many tokens have been read. -/
  position : Nat
  context : GrammarContext
  colonSeparates : Bool

/-- Runs with some fuel on the tokens, from registers to an outcome and registers. -/
def Descent (α : Type) : Type :=
  Nat → List (Located Token) → Registers → Option (Except GrammarError α × Registers)

namespace Descent

/-- The end of the input. -/
def endSpan (tokens : List (Located Token)) : Span :=
  match tokens.getLast? with
  | some t => t.span.endpoint
  | none => .nowhere

/-- The span of the token at the position, or the end of the input. -/
def currentSpan (tokens : List (Located Token)) (position : Nat) : Span :=
  match tokens[position]? with
  | some t => t.span
  | none => endSpan tokens

/-- The span of the token before the position, or the end of the input if there is none. -/
def previousSpan (tokens : List (Located Token)) : Nat → Span
  | 0 => endSpan tokens
  | n + 1 => currentSpan tokens n

variable {α : Type}

/-- What comes second goes on from the registers that what comes first has left. -/
instance : Monad Descent where
  pure a := fun _ _ r => some (.ok a, r)
  bind q f := fun fuel tokens r =>
    match q fuel tokens r with
    | some (.ok a, r) => f a fuel tokens r
    | some (.error e, r) => some (.error e, r)
    | none => none

/-- Needs more fuel than there is. -/
def diverge : Descent α := fun _ _ _ => none

/-- A part with a mode of its own puts the old one back whatever its outcome is. Every loop and
every cycle of calls has the fuel that there is. -/
instance : Reader Descent where
  next? := fun _ tokens r => some (.ok tokens[r.position]?, r)
  peek? := fun _ tokens r => some (.ok (tokens[r.position]?.map Located.node), r)
  peekTwo? := fun _ tokens r =>
    some (.ok (tokens[r.position]?.map Located.node, tokens[r.position + 1]?.map Located.node), r)
  position := fun _ tokens r => some (.ok (currentSpan tokens r.position), r)
  previous := fun _ tokens r => some (.ok (previousSpan tokens r.position), r)
  advance := fun _ _ r => some (.ok (), { r with position := r.position + 1 })
  fail fault span := fun _ _ r => some (.error ⟨r.context, fault, span⟩, r)
  unexpected what := fun _ tokens r =>
    some (.error ⟨r.context, .expected what (tokens[r.position]?.map Located.node),
      currentSpan tokens r.position⟩, r)
  colonSeparates := fun _ _ r => some (.ok r.colonSeparates, r)
  inContext context q := fun fuel tokens r =>
    (q fuel tokens { r with context := context }).map fun (outcome, r') =>
      (outcome, { r' with context := r.context })
  withColonSeparating b q := fun fuel tokens r =>
    (q fuel tokens { r with colonSeparates := b }).map fun (outcome, r') =>
      (outcome, { r' with colonSeparates := r.colonSeparates })
  bounded q := fun fuel => q fuel fuel
  lastRound _ := diverge
  lastCall := diverge

end Descent

end ErlangFragment
