import ErlangFragment.Grammar.Reader

/-! Parsers over located tokens. A parser reads from a cursor; the mode it runs in is an argument,
so it ends in the mode it began in. -/

namespace ErlangFragment

/-- A place between tokens: the span of the token before it and the tokens after it. -/
structure Cursor where
  previous : Span
  rest : List (Located Token)

/-- The span of the next token, or the end of the last one. -/
def Cursor.position (c : Cursor) : Span :=
  match c.rest with
  | [] => c.previous.endpoint
  | t :: _ => t.span

/-- What a parser has from the constructs around it. -/
structure Mode where
  /-- The construct that errors name. -/
  context : GrammarContext
  /-- Whether a colon separates the patterns of a catch clause instead of forming a remote call. -/
  colonSeparates : Bool

/-- The error of the next token, where something else is asked for. -/
def Mode.unexpected (m : Mode) (c : Cursor) (what : Expectation) : GrammarError :=
  ⟨m.context, .expected what (c.rest.head?.map Located.node), c.position⟩

/-- A parser gives a result with the cursor behind what it has read, or an error. It never goes back
to a token that was read. -/
def Parser (α : Type) : Type := Mode → Cursor → Except GrammarError (α × Cursor)

namespace Parser

variable {α : Type}

instance : Monad Parser where
  pure a := fun _ c => .ok (a, c)
  bind p f := fun m c =>
    match p m c with
    | .error e => .error e
    | .ok (a, c) => f a m c

/-- Runs a parser on all tokens. -/
def run (p : Parser α) (tokens : List (Located Token)) : Except GrammarError α :=
  (p ⟨.expression, false⟩ ⟨.nowhere, tokens⟩).map Prod.fst

/-- No loop has more rounds than there are tokens left, and no call is deeper, so that a loop
without rounds has come to its end, and a rule without calls finds no token. -/
instance : Reader Parser where
  next? := fun _ c => .ok (c.rest.head?, c)
  peek? := fun _ c => .ok (c.rest.head?.map Located.node, c)
  peekTwo? := fun _ c =>
    .ok ((c.rest.head?.map Located.node, (c.rest.drop 1).head?.map Located.node), c)
  position := fun _ c => .ok (c.position, c)
  previous := fun _ c => .ok (c.previous, c)
  advance := fun _ c =>
    match c.rest with
    | [] => .ok ((), c)
    | t :: ts => .ok ((), ⟨t.span, ts⟩)
  fail fault span := fun m _ => .error ⟨m.context, fault, span⟩
  unexpected what := fun m c => .error (m.unexpected c what)
  colonSeparates := fun m c => .ok (m.colonSeparates, c)
  inContext context p := fun m c => p { m with context := context } c
  withColonSeparating b p := fun m c => p { m with colonSeparates := b } c
  bounded p := fun m c => p c.rest.length m c
  lastRound := pure
  lastCall := fun m c => .error (m.unexpected c .expression)

end Parser

end ErlangFragment
