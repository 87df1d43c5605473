import ErlangFragment.Grammar.Parser

/-! When a parser succeeds: one law for each way of reading tokens and for each way of putting
parsers together. -/

namespace ErlangFragment

/-- The span of the last token read, where `previous` is the one before all of them. -/
def lastSpan (previous : Span) : List (Located Token) → Span
  | [] => previous
  | t :: ts => lastSpan t.span ts

/-- The span from the first of the tokens through the last. -/
def extent : List (Located Token) → Span
  | [] => .nowhere
  | t :: ts => t.span.through (lastSpan t.span ts)

/-- The first token of a part, or the one behind it if it is empty. -/
def firstOf (toks : List (Located Token)) (next : Option Token) : Option Token :=
  match toks with
  | [] => next
  | t :: _ => some t.node

@[simp] theorem lastSpan_nil (s : Span) : lastSpan s [] = s := rfl

@[simp] theorem lastSpan_cons (s : Span) (t : Located Token) (ts : List (Located Token)) :
    lastSpan s (t :: ts) = lastSpan t.span ts := rfl

@[simp] theorem firstOf_nil (next : Option Token) : firstOf [] next = next := rfl

@[simp] theorem firstOf_cons (t : Located Token) (ts : List (Located Token)) (next : Option Token) :
    firstOf (t :: ts) next = some t.node := rfl

/-- What is last in tokens one after the other is last in the second of them, where there is any. -/
theorem lastSpan_append (s : Span) (ts us : List (Located Token)) :
    lastSpan s (ts ++ us) = lastSpan (lastSpan s ts) us := by
  induction ts generalizing s with
  | nil => rfl
  | cons t ts ih => exact ih t.span

theorem firstOf_append (ts us : List (Located Token)) (next : Option Token) :
    firstOf (ts ++ us) next = firstOf ts (firstOf us next) := by
  cases ts <;> rfl

theorem lastSpan_of_ne_nil {ts : List (Located Token)} (h : ts ≠ []) (s s' : Span) :
    lastSpan s ts = lastSpan s' ts := by
  cases ts with
  | nil => exact absurd rfl h
  | cons t ts => rfl

namespace Cursor

/-- The next token. -/
def next (c : Cursor) : Option Token := firstOf c.rest none

/-- From the first cursor to the second one exactly these tokens are read. -/
structure Passes (c : Cursor) (toks : List (Located Token)) (c' : Cursor) : Prop where
  rest : c.rest = toks ++ c'.rest
  previous : c'.previous = lastSpan c.previous toks

namespace Passes

variable {c c₁ c' : Cursor} {t : Located Token} {ts us : List (Located Token)}

theorem refl (c : Cursor) : c.Passes [] c := ⟨rfl, rfl⟩

theorem trans (h : c.Passes ts c₁) (h' : c₁.Passes us c') : c.Passes (ts ++ us) c' where
  rest := by rw [h.rest, h'.rest, List.append_assoc]
  previous := by rw [h'.previous, h.previous, lastSpan_append]

theorem cons (h : c.Passes [t] c₁) (h' : c₁.Passes ts c') : c.Passes (t :: ts) c' := h.trans h'

theorem eq_of_nil (h : c.Passes [] c') : c' = c := by
  obtain ⟨hr, hp⟩ := h
  cases c
  cases c'
  simp_all

/-- A cursor that has passed two sequences has been between them. -/
theorem split_append (h : c.Passes (ts ++ us) c') : ∃ c₁, c.Passes ts c₁ ∧ c₁.Passes us c' := by
  refine ⟨⟨lastSpan c.previous ts, us ++ c'.rest⟩, ⟨?_, rfl⟩, ⟨rfl, ?_⟩⟩
  · rw [h.rest, List.append_assoc]
  · rw [h.previous, lastSpan_append]

theorem split_cons (h : c.Passes (t :: ts) c') : ∃ c₁, c.Passes [t] c₁ ∧ c₁.Passes ts c' := by
  rw [← List.singleton_append] at h
  exact split_append h

/-- What is next to a cursor is the first token that it passes, or what is next behind them. -/
theorem next_eq (h : c.Passes ts c') : c.next = firstOf ts c'.next := by
  rw [next, h.rest, firstOf_append]
  rfl

theorem next_token (h : c.Passes (t :: ts) c') : c.next = some t.node := h.next_eq

theorem previous_token (h : c.Passes [t] c') : c'.previous = t.span := h.previous

theorem position_eq (h : c.Passes (t :: ts) c') : c.position = t.span := by
  rw [position, h.rest]
  rfl

theorem length_eq (h : c.Passes ts c') : c.rest.length = ts.length + c'.rest.length := by
  rw [h.rest, List.length_append]

/-- A bound on the tokens that are left is one later on. -/
theorem rest_le (h : c.Passes ts c') : c'.rest.length ≤ c.rest.length := by
  rw [h.length_eq]
  exact Nat.le_add_left _ _

/-- Behind any tokens there are fewer left. -/
theorem rest_lt_of_ne_nil (h : c.Passes ts c') (hne : ts ≠ []) :
    c'.rest.length < c.rest.length := by
  rw [h.length_eq]
  exact Nat.lt_add_of_pos_left (List.length_pos_iff.mpr hne)

theorem rest_lt (h : c.Passes [t] c') : c'.rest.length < c.rest.length :=
  h.rest_lt_of_ne_nil (List.cons_ne_nil _ _)

/-- The span that is built from the position and the last token read is that of the tokens. -/
theorem extent_eq (h : c.Passes ts c') (hne : ts ≠ []) :
    c.position.through c'.previous = extent ts := by
  cases ts with
  | nil => exact absurd rfl hne
  | cons t ts => rw [h.position_eq, h.previous, extent, lastSpan_cons]

/-- The last of the tokens ends where reading stops. -/
theorem previous_of_ne_nil (h : c.Passes ts c') (hne : ts ≠ []) (s : Span) :
    c'.previous = lastSpan s ts := by
  rw [h.previous, lastSpan_of_ne_nil hne]

/-- The tokens that are read decide where reading stops. -/
theorem unique {c₂ : Cursor} (h : c.Passes ts c₁) (h' : c.Passes ts c₂) : c₁ = c₂ := by
  obtain ⟨hr, hp⟩ := h
  obtain ⟨hr', hp'⟩ := h'
  cases c₁
  cases c₂
  simp_all

end Passes

/-- A token is next exactly if there is one to pass. -/
theorem next_eq_some_iff {c : Cursor} {t : Token} :
    c.next = some t ↔ ∃ u c', u.node = t ∧ c.Passes [u] c' := by
  constructor
  · intro h
    obtain ⟨p, _ | ⟨u, ts⟩⟩ := c
    · simp [next] at h
    · exact ⟨u, ⟨u.span, ts⟩, by simpa [next] using h, ⟨rfl, rfl⟩⟩
  · rintro ⟨u, c', rfl, h⟩
    exact h.next_token

/-- Nothing is next where no token is left. -/
theorem next_eq_none {c : Cursor} (h : c.rest.length ≤ 0) : c.next = none := by
  rw [Cursor.next, List.length_eq_zero_iff.mp (Nat.le_zero.mp h)]
  rfl

theorem passes_head {c : Cursor} {t : Located Token} (h : c.rest.head? = some t) :
    ∃ c', c.Passes [t] c' := by
  obtain ⟨p, _ | ⟨u, ts⟩⟩ := c
  · simp at h
  · obtain rfl : u = t := by simpa using h
    exact ⟨⟨u.span, ts⟩, rfl, rfl⟩

theorem next_eq_map (c : Cursor) : c.rest.head?.map Located.node = c.next := by
  obtain ⟨_, _ | ⟨_, _⟩⟩ := c <;> rfl

end Cursor

namespace Parser

open Reader

variable {α β : Type} {m : Mode} {c c' : Cursor}

/-! ### Reading -/

theorem pure_eq_ok {a b : α} : (pure a : Parser α) m c = .ok (b, c') ↔ b = a ∧ c' = c := by
  change Except.ok (a, c) = Except.ok (b, c') ↔ _
  simp [eq_comm]

theorem bind_of_ok {p : Parser α} {f : α → Parser β} {a : α} (h : p m c = .ok (a, c')) :
    (p >>= f) m c = f a m c' := by
  simp only [Bind.bind, h]

theorem bind_of_error {p : Parser α} {f : α → Parser β} {e : GrammarError} (h : p m c = .error e) :
    (p >>= f) m c = .error e := by
  simp only [Bind.bind, h]

/-- A sequence succeeds exactly if both of its parts do, one where the other has stopped. -/
theorem bind_eq_ok {p : Parser α} {f : α → Parser β} {r : β × Cursor} :
    (p >>= f) m c = .ok r ↔ ∃ a c₁, p m c = .ok (a, c₁) ∧ f a m c₁ = .ok r := by
  cases h : p m c with
  | error e => simp [bind_of_error h]
  | ok q =>
      obtain ⟨a, c₁⟩ := q
      rw [bind_of_ok h]
      refine ⟨fun hf => ⟨a, c₁, rfl, hf⟩, ?_⟩
      rintro ⟨_, _, hq, hf⟩
      cases hq
      exact hf

/-- Finding something else than expected is never a success. -/
theorem unexpected_ne_ok {what : Expectation} {r : α × Cursor} :
    (unexpected what : Parser α) m c ≠ .ok r := by
  simp [Reader.unexpected]

theorem fail_ne_ok {fault : GrammarFault} {span : Span} {r : α × Cursor} :
    (fail fault span : Parser α) m c ≠ .ok r := by
  simp [Reader.fail]

theorem colonSeparates_bind (f : Bool → Parser α) :
    (colonSeparates >>= f) m c = f m.colonSeparates m c := rfl

theorem next?_bind (f : Option (Located Token) → Parser α) :
    (next? >>= f) m c = f c.rest.head? m c := rfl

theorem peek?_bind (f : Option Token → Parser α) : (peek? >>= f) m c = f c.next m c := by
  rw [← Cursor.next_eq_map]
  rfl

theorem peekTwo?_bind (f : Option Token × Option Token → Parser α) :
    (peekTwo? >>= f) m c = f (c.next, (c.rest.drop 1).head?.map Located.node) m c := by
  rw [← Cursor.next_eq_map]
  rfl

theorem position_bind (f : Span → Parser α) : (position >>= f) m c = f c.position m c := rfl

theorem previous_bind (f : Span → Parser α) : (previous >>= f) m c = f c.previous m c := rfl

theorem inContext_apply (context : GrammarContext) (p : Parser α) :
    inContext context p m c = p { m with context := context } c := rfl

theorem bounded_apply (p : Nat → Parser α) : bounded p m c = p c.rest.length m c := rfl

theorem withColonSeparating_apply (b : Bool) (p : Parser α) :
    withColonSeparating b p m c = p { m with colonSeparates := b } c := rfl

/-- One more token is read if there is one. -/
theorem advance_bind {f : Unit → Parser α} {t : Located Token} (h : c.Passes [t] c') :
    (advance >>= f) m c = f () m c' := by
  obtain ⟨_, ts⟩ := c
  obtain ⟨hr, hp⟩ := h
  cases c'
  simp only [List.cons_append, List.nil_append] at hr hp
  subst hr hp
  rfl

theorem advance_eq_ok {t : Located Token} {u : Unit} {c₁ : Cursor} (h : c.Passes [t] c') :
    (advance : Parser Unit) m c = .ok (u, c₁) ↔ c₁ = c' := by
  have := advance_bind (m := m) (f := pure) h
  rw [show (advance >>= pure : Parser Unit) m c = (advance : Parser Unit) m c by
    obtain ⟨_, _ | _⟩ := c <;> rfl] at this
  rw [this, pure_eq_ok]
  simp

/-- The token that is asked for is passed. -/
theorem eat_bind_of_next {f : Bool → Parser α} {t : Located Token} (h : c.Passes [t] c') :
    (eat t.node >>= f) m c = f true m c' := by
  obtain ⟨_, ts⟩ := c
  obtain ⟨hr, hp⟩ := h
  cases c'
  simp only [List.cons_append, List.nil_append] at hr hp
  subst hr hp
  simp [eat, check, peek?, advance, bind, pure, lastSpan]

/-- Nothing is passed where another token is next. -/
theorem eat_bind_of_ne {f : Bool → Parser α} {t : Token} (h : c.next ≠ some t) :
    (eat t >>= f) m c = f false m c := by
  rw [← Cursor.next_eq_map] at h
  simp [eat, check, peek?, bind, pure, h]

/-- A choice by what is next takes the branch of the token behind it, and the other one in place. -/
theorem eat_bind_eq_ok {t : Token} {p q : Parser α} {r : α × Cursor} :
    (eat t >>= fun b => if b = true then p else q) m c = .ok r ↔
      (∃ u c₁, u.node = t ∧ c.Passes [u] c₁ ∧ p m c₁ = .ok r) ∨
        (c.next ≠ some t ∧ q m c = .ok r) := by
  by_cases h : c.next = some t
  · obtain ⟨u, c₁, rfl, hu⟩ := Cursor.next_eq_some_iff.mp h
    rw [eat_bind_of_next hu]
    refine ⟨fun hp => .inl ⟨u, c₁, rfl, hu, hp⟩, ?_⟩
    rintro (⟨v, c₂, -, hv, hp⟩ | ⟨hne, -⟩)
    · have huv : u = v ∧ c₁.rest = c₂.rest := by simpa [hu.rest] using hv.rest
      have : c₁ = c₂ := hu.unique (huv.1 ▸ hv)
      simpa [this] using hp
    · exact absurd hu.next_token hne
  · rw [eat_bind_of_ne h]
    refine ⟨fun hq => .inr ⟨h, hq⟩, ?_⟩
    rintro (⟨u, c₁, rfl, hu, -⟩ | ⟨-, hq⟩)
    · exact absurd hu.next_token h
    · exact hq

theorem check_bind (t : Token) (f : Bool → Parser α) :
    (check t >>= f) m c = f (decide (c.next = some t)) m c := by
  rw [← Cursor.next_eq_map]
  rfl

/-- A choice by what is next that reads nothing. -/
theorem check_bind_eq_ok {t : Token} {p q : Parser α} {r : α × Cursor} :
    (check t >>= fun b => if b = true then p else q) m c = .ok r ↔
      (c.next = some t ∧ p m c = .ok r) ∨ (c.next ≠ some t ∧ q m c = .ok r) := by
  rw [check_bind]
  by_cases h : c.next = some t <;> simp [h]

/-- An expected token is there, it is passed, and its span is the result. -/
theorem expect_eq_ok {t : Token} {s : Span} :
    (expect t : Parser Span) m c = .ok (s, c') ↔ ∃ u, u.node = t ∧ s = u.span ∧ c.Passes
    [u] c' := by
  rw [expect, eat_bind_eq_ok]
  constructor
  · rintro (⟨u, c₁, rfl, hu, h⟩ | ⟨-, h⟩)
    · simp only [previous, Except.ok.injEq, Prod.mk.injEq] at h
      obtain ⟨rfl, rfl⟩ := h
      exact ⟨u, rfl, hu.previous_token, hu⟩
    · exact absurd h unexpected_ne_ok
  · rintro ⟨u, rfl, rfl, hu⟩
    exact .inl ⟨u, c', rfl, hu, by simp [previous, hu.previous_token]⟩

theorem expect_bind_eq_ok {t : Token} {f : Span → Parser α} {r : α × Cursor} :
    (expect t >>= f) m c = .ok r ↔
      ∃ u c₁, u.node = t ∧ c.Passes [u] c₁ ∧ f u.span m c₁ = .ok r := by
  rw [bind_eq_ok]
  constructor
  · rintro ⟨s, c₁, h, hf⟩
    obtain ⟨u, rfl, rfl, hu⟩ := expect_eq_ok.mp h
    exact ⟨u, c₁, rfl, hu, hf⟩
  · rintro ⟨u, c₁, rfl, hu, hf⟩
    exact ⟨u.span, c₁, expect_eq_ok.mpr ⟨u, rfl, rfl, hu⟩, hf⟩

/-- An expected name is an atom that is there and is passed. -/
theorem expectAtom_eq_ok {r : Located String} :
    (expectAtom : Parser (Located String)) m c = .ok (r, c') ↔
      ∃ u, u.node = .atom r.node ∧ r.span = u.span ∧ c.Passes [u] c' := by
  rw [expectAtom, next?_bind]
  constructor
  · intro h
    rcases hn : c.rest.head? with _ | ⟨t, span⟩ <;> rw [hn] at h
    · exact absurd h unexpected_ne_ok
    · cases t
      case atom name =>
        obtain ⟨c₁, hp⟩ := Cursor.passes_head hn
        simp only [advance_bind hp, pure_eq_ok] at h
        obtain ⟨rfl, rfl⟩ := h
        exact ⟨_, rfl, rfl, hp⟩
      all_goals exact absurd h unexpected_ne_ok
  · rintro ⟨⟨t, span⟩, ht, hs, hp⟩
    obtain ⟨name, _⟩ := r
    subst ht hs
    rw [hp.rest]
    exact (advance_bind hp).trans (pure_eq_ok.mpr ⟨rfl, rfl⟩)

/-! ### Putting together -/

/-- What is given a span is read as it is, and its span reaches over the tokens that it was read
from. -/
theorem spanned_eq_ok {p : Parser α} {r : Located α} :
    spanned p m c = .ok (r, c') ↔
      p m c = .ok (r.node, c') ∧ r.span = c.position.through c'.previous := by
  rw [spanned, position_bind, bind_eq_ok]
  constructor
  · rintro ⟨a, c₁, h, hr⟩
    rw [previous_bind, pure_eq_ok] at hr
    obtain ⟨rfl, rfl⟩ := hr
    exact ⟨h, rfl⟩
  · rintro ⟨h, hs⟩
    refine ⟨r.node, c', h, ?_⟩
    rw [previous_bind, pure_eq_ok, ← hs]
    exact ⟨rfl, rfl⟩

/-- Something between two brackets, or nothing. -/
theorem bracketed_eq_ok {l r : Token} {q : Parser (List α)} {as : List α} :
    (do
      let _ ← expect l
      if ← eat r then return []
      let as ← q
      let _ ← expect r
      return as : Parser (List α)) m c = .ok (as, c') ↔
      ∃ x c₁, x.node = l ∧ c.Passes [x] c₁ ∧
        ((as = [] ∧ ∃ y, y.node = r ∧ c₁.Passes [y] c') ∨
          (c₁.next ≠ some r ∧ ∃ c₂ y, q m c₁ = .ok (as, c₂) ∧ y.node = r ∧ c₂.Passes [y] c')) := by
  rw [expect_bind_eq_ok]
  constructor
  · rintro ⟨x, c₁, hx, px, h⟩
    rw [eat_bind_eq_ok] at h
    rcases h with ⟨y, c₂, hy, py, h⟩ | ⟨hne, h⟩
    · obtain ⟨rfl, rfl⟩ := pure_eq_ok.mp h
      exact ⟨x, c₁, hx, px, .inl ⟨rfl, y, hy, py⟩⟩
    · simp only [bind_eq_ok, expect_eq_ok, pure_eq_ok] at h
      obtain ⟨_, c₂, ha, _, _, ⟨y, hy, rfl, py⟩, rfl, rfl⟩ := h
      exact ⟨x, c₁, hx, px, .inr ⟨hne, c₂, y, ha, hy, py⟩⟩
  · rintro ⟨x, c₁, hx, px, h⟩
    refine ⟨x, c₁, hx, px, ?_⟩
    rw [eat_bind_eq_ok]
    rcases h with ⟨rfl, y, hy, py⟩ | ⟨hne, c₂, y, ha, hy, py⟩
    · exact .inl ⟨y, c', hy, py, pure_eq_ok.mpr ⟨rfl, rfl⟩⟩
    · simp only [bind_eq_ok, expect_eq_ok, pure_eq_ok]
      exact .inr ⟨hne, as, c₂, ha, _, c', ⟨y, hy, rfl, py⟩, rfl, rfl⟩

end Parser

end ErlangFragment
