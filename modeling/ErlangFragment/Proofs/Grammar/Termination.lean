import ErlangFragment.Proofs.Grammar.Descent
import ErlangFragment.Proofs.Grammar.Laws

/-! The recursive descent comes to an end. A part of the grammar that is run with more fuel than
there are tokens left does what its parser does, stays within the tokens, and leaves the mode as it
was. The induction is on the number of tokens left: every loop and every cycle of calls reads a
token before it comes round. -/

namespace ErlangFragment

open ErlangFragment.Reader ErlangFragment.Grammar ErlangFragment.Parser

namespace Registers

def mode (r : Registers) : Mode := ⟨r.context, r.colonSeparates⟩

/-- How many tokens are left. -/
def left (r : Registers) (tokens : List (Located Token)) : Nat := tokens.length - r.position

end Registers

/-- The place between tokens that a position stands for. -/
def cursorAt (tokens : List (Located Token)) (position : Nat) : Cursor :=
  ⟨Descent.previousSpan tokens position, tokens.drop position⟩

namespace Descent

section

variable {tokens : List (Located Token)} {n : Nat}

theorem currentSpan_of_lt (h : n < tokens.length) : currentSpan tokens n = tokens[n].span := by
  rw [currentSpan, List.getElem?_eq_getElem h]

theorem currentSpan_of_le (h : tokens.length ≤ n) : currentSpan tokens n = endSpan tokens := by
  rw [currentSpan, List.getElem?_eq_none h]

/-- Behind the last token stands no further place. -/
theorem endSpan_endpoint (tokens : List (Located Token)) :
    (endSpan tokens).endpoint = endSpan tokens := by
  unfold endSpan
  split <;> rfl

/-- At the end of the input every position is the end of the token before it. -/
theorem previousSpan_endpoint (h : tokens.length ≤ n) :
    (previousSpan tokens n).endpoint = endSpan tokens := by
  rcases n with _ | n
  · exact endSpan_endpoint tokens
  rw [previousSpan]
  by_cases hlt : n < tokens.length
  · have hlast : tokens.getLast? = some tokens[n] := by
      rw [List.getLast?_eq_getElem?, show tokens.length - 1 = n by omega,
        List.getElem?_eq_getElem hlt]
    rw [currentSpan_of_lt hlt, endSpan, hlast]
  · rw [currentSpan_of_le (by omega), endSpan_endpoint]

theorem cursorAt_next? (tokens : List (Located Token)) (n : Nat) :
    (cursorAt tokens n).rest.head? = tokens[n]? :=
  List.head?_drop

theorem cursorAt_next (tokens : List (Located Token)) (n : Nat) :
    (cursorAt tokens n).next = tokens[n]?.map Located.node := by
  rw [← Cursor.next_eq_map, cursorAt_next?]

theorem cursorAt_position (tokens : List (Located Token)) (n : Nat) :
    (cursorAt tokens n).position = currentSpan tokens n := by
  unfold Cursor.position
  by_cases h : n < tokens.length
  · simp only [cursorAt, List.drop_eq_getElem_cons h, currentSpan_of_lt h]
  · have hle := Nat.le_of_not_lt h
    simp only [cursorAt, List.drop_eq_nil_of_le hle, currentSpan_of_le hle,
      previousSpan_endpoint hle]

/-- The cursor of a position passes one token to that of the next position. -/
theorem cursorAt_passes (h : n < tokens.length) :
    (cursorAt tokens n).Passes [tokens[n]] (cursorAt tokens (n + 1)) where
  rest := List.drop_eq_getElem_cons h
  previous := currentSpan_of_lt h

end

variable {α β : Type}

/-- The outcome of a run from `start` to `stop` that reads at least so many tokens is that of a
parser. -/
inductive Lands (tokens : List (Located Token)) (start least : Nat) :
    Except GrammarError α → Nat → Except GrammarError (α × Cursor) → Prop
  | ok {a stop} : start + least ≤ stop → stop ≤ max start tokens.length →
      Lands tokens start least (.ok a) stop (.ok (a, cursorAt tokens stop))
  | error {e stop} : Lands tokens start least (.error e) stop (.error e)

/-- Nothing is known of the next token. -/
def Anywhere : Option Token → Prop := fun _ => True

def NextIs (t : Token) : Option Token → Prop := (· = some t)

/-- Wherever less than `k` tokens are left and the next one is known to be such, a run ends as the
parser does, with the mode that it began in, and has read at least `least` tokens if it has not
failed. -/
def Follows (ahead : Option Token → Prop) (least k : Nat) (q : Descent α) (p : Parser α) : Prop :=
  ∀ fuel tokens r, ahead (tokens[r.position]?.map Located.node) → r.left tokens < k →
    r.left tokens < fuel → ∃ outcome stop,
    q fuel tokens r = some (outcome, { r with position := stop }) ∧
      Lands tokens r.position least outcome stop (p r.mode (cursorAt tokens r.position))

variable {a : Option Token → Prop} {d e k n : Nat} {q : Descent α} {p : Parser α}
  {f : α → Descent β}
  {g : α → Parser β}

/-! ### Laws -/

theorem Lands.mono {tokens : List (Located Token)} {start stop : Nat}
    {outcome : Except GrammarError α} {result : Except GrammarError (α × Cursor)}
    (h : Lands tokens start d outcome stop result) (hd : e ≤ d) :
    Lands tokens start e outcome stop result := by
  cases h with
  | ok hleast hstop => exact .ok (by omega) hstop
  | error => exact .error

/-- What is known of the next token may be forgotten. -/
theorem Follows.ahead (h : Follows Anywhere d k q p) : Follows a d k q p :=
  fun fuel tokens r _ => h fuel tokens r True.intro

/-- Fewer tokens than are read may be promised. -/
theorem Follows.atLeast (h : Follows a d k q p) (hd : e ≤ d) : Follows a e k q p := by
  intro fuel tokens r hahead hleft hfuel
  obtain ⟨outcome, stop, hq, hland⟩ := h fuel tokens r hahead hleft hfuel
  exact ⟨outcome, stop, hq, hland.mono hd⟩

theorem Follows.weak (h : Follows a d k q p) : Follows a 0 k q p := h.atLeast (Nat.zero_le d)

theorem Follows.below {k' : Nat} (h : Follows a d k q p) (hk : k' ≤ k) : Follows a d k' q p :=
  fun fuel tokens r hahead hleft => h fuel tokens r hahead (Nat.lt_of_lt_of_le hleft hk)

/-- What comes second has as many tokens fewer as what comes first has read. -/
theorem Follows.bind_of_reads (h : Follows a d k q p)
    (hf : ∀ x, Follows Anywhere e (k - d) (f x) (g x)) :
    Follows a (d + e) k (q >>= f) (p >>= g) := by
  intro fuel tokens r hahead hleft hfuel
  obtain ⟨outcome, middle, hq, hland⟩ := h fuel tokens r hahead hleft hfuel
  generalize hp : p r.mode (cursorAt tokens r.position) = result at hland
  cases hland with
  | @error x _ =>
      refine ⟨.error x, middle, ?_, ?_⟩
      · simp only [Bind.bind, hq]
      · rw [bind_of_error hp]
        exact .error
  | @ok x _ hleast hstop =>
      -- A run that has read something has not gone behind the end, so fewer tokens are left.
      have hfewer : ({ r with position := middle } : Registers).left tokens + d ≤
          r.left tokens := by
        simp only [Registers.left]
        omega
      obtain ⟨outcome', stop, hq', hland'⟩ := hf x fuel tokens { r with position := middle }
        True.intro (by omega) (by omega)
      refine ⟨outcome', stop, ?_, ?_⟩
      · simp only [Bind.bind, hq, hq']
      · rw [bind_of_ok hp]
        change Lands tokens middle e outcome' stop (g x r.mode (cursorAt tokens middle)) at hland'
        generalize g x r.mode (cursorAt tokens middle) = result at hland' ⊢
        cases hland' with
        | error => exact .error
        | ok hleast' hstop' => exact .ok (by omega) (by omega)

theorem Follows.bind (h : Follows a d k q p) (hf : ∀ x, Follows Anywhere 0 k (f x) (g x)) :
    Follows a 0 k (q >>= f) (p >>= g) :=
  (h.bind_of_reads fun x => (hf x).below (Nat.sub_le k d)).weak

/-- What comes first reads a token. -/
theorem Follows.first (h : Follows a 1 k q p) (hf : ∀ x, Follows Anywhere 0 k (f x) (g x)) :
    Follows a 1 k (q >>= f) (p >>= g) :=
  h.bind_of_reads fun x => (hf x).below (Nat.sub_le k 1)

/-- What comes first reads a token, which what comes second has less. -/
theorem Follows.reads (h : Follows a 1 (k + 1) q p) (hf : ∀ x, Follows Anywhere 0 k (f x) (g x)) :
    Follows a 1 (k + 1) (q >>= f) (p >>= g) := h.bind_of_reads hf

/-- What comes second reads a token. -/
theorem Follows.second (h : Follows a d k q p) (hf : ∀ x, Follows Anywhere 1 k (f x) (g x)) :
    Follows a 1 k (q >>= f) (p >>= g) :=
  (h.bind_of_reads fun x => (hf x).below (Nat.sub_le k d)).atLeast (Nat.le_add_left 1 d)

/-- A result that is there reads nothing. -/
theorem Follows.pure (x : α) : Follows a 0 k (return x : Descent α) (return x : Parser α) :=
  fun _ _ r _ _ _ => ⟨.ok x, r.position, rfl, .ok (Nat.le_refl _) (Nat.le_max_left _ _)⟩

/-- A failure promises any number of tokens, as it ends the run. -/
theorem Follows.fail (fault : GrammarFault) (s : Span) :
    Follows a d k (fail fault s : Descent α) (fail fault s : Parser α) :=
  fun _ _ r _ _ _ => ⟨.error ⟨r.context, fault, s⟩, r.position, rfl, .error⟩

theorem follows_unexpected (what : Expectation) :
    Follows a d k (unexpected what : Descent α) (unexpected what : Parser α) := by
  intro fuel tokens r _ _ _
  refine ⟨_, r.position, rfl, ?_⟩
  rw [← cursorAt_next, ← Cursor.next_eq_map, ← cursorAt_position]
  exact .error

theorem Follows.ite {q' : Descent α} {p' : Parser α} {b : Prop} [Decidable b]
    (h : Follows a d k q p) (h' : Follows a d k q' p') :
    Follows a d k (if b then q else q') (if b then p else p') := by
  split
  · exact h
  · exact h'

section

variable {f : Option (Located Token) → Descent β} {g : Option (Located Token) → Parser β}

/-- A branch on the next token knows it where there is one. -/
theorem Follows.next? (hnone : Follows Anywhere d k (f none) (g none))
    (hsome : ∀ t, Follows (NextIs t.node) d k (f (some t)) (g (some t))) :
    Follows a d k (next? >>= f) (next? >>= g) := by
  intro fuel tokens r _ hleft hfuel
  rw [Parser.next?_bind, cursorAt_next?]
  change ∃ outcome stop, f tokens[r.position]? fuel tokens r = _ ∧ _
  rcases h : tokens[r.position]? with _ | t
  · exact hnone fuel tokens r True.intro hleft hfuel
  · exact hsome t fuel tokens r (congrArg (Option.map Located.node) h) hleft hfuel

end

section

variable {f : Option Token → Descent β} {g : Option Token → Parser β}

theorem Follows.peek? (hnone : Follows Anywhere d k (f none) (g none))
    (hsome : ∀ t, Follows (NextIs t) d k (f (some t)) (g (some t))) :
    Follows a d k (peek? >>= f) (peek? >>= g) :=
  @Follows.next? β a d k (fun t => f (t.map Located.node)) (fun t => g (t.map Located.node)) hnone
    fun t => hsome t.node

theorem Follows.peek?_of_next {t : Token} (h : Follows (NextIs t) d k (f (some t)) (g (some t))) :
    Follows (NextIs t) d k (Reader.peek? >>= f) (Reader.peek? >>= g) := by
  intro fuel tokens r hnext hleft hfuel
  have hrun := h fuel tokens r hnext hleft hfuel
  rw [← hnext] at hrun
  rwa [Parser.peek?_bind, cursorAt_next]

end

theorem Follows.peekTwo? {f : Option Token × Option Token → Descent β}
    {g : Option Token × Option Token → Parser β} (h : ∀ t, Follows Anywhere d k (f t) (g t)) :
    Follows a d k (peekTwo? >>= f) (peekTwo? >>= g) := by
  intro fuel tokens r _ hleft hfuel
  have hsecond : ((cursorAt tokens r.position).rest.drop 1).head? = tokens[r.position + 1]? := by
    rw [cursorAt, List.drop_drop, List.head?_drop]
  rw [Parser.peekTwo?_bind, cursorAt_next, hsecond]
  exact h _ fuel tokens r True.intro hleft hfuel

theorem Follows.colonSeparates {f : Bool → Descent β} {g : Bool → Parser β}
    (h : ∀ b, Follows a d k (f b) (g b)) :
    Follows a d k (colonSeparates >>= f) (colonSeparates >>= g) :=
  fun fuel tokens r => h r.colonSeparates fuel tokens r

theorem Follows.position {f : Span → Descent β} {g : Span → Parser β}
    (h : ∀ s, Follows a d k (f s) (g s)) : Follows a d k (position >>= f) (position >>= g) := by
  intro fuel tokens r hahead hleft hfuel
  rw [Parser.position_bind, cursorAt_position]
  exact h _ fuel tokens r hahead hleft hfuel

theorem Follows.previous {f : Span → Descent β} {g : Span → Parser β}
    (h : ∀ s, Follows a d k (f s) (g s)) : Follows a d k (previous >>= f) (previous >>= g) :=
  fun fuel tokens r => h (previousSpan tokens r.position) fuel tokens r

theorem follows_previous : Follows a 0 k previous previous :=
  fun _ tokens r _ _ _ => ⟨.ok (previousSpan tokens r.position), r.position, rfl,
    .ok (Nat.le_refl _) (Nat.le_max_left _ _)⟩

theorem follows_advance {t : Token} : Follows (NextIs t) 1 k advance advance := by
  intro fuel tokens r hnext _ _
  obtain ⟨_, hget, -⟩ := Option.map_eq_some_iff.mp hnext
  obtain ⟨hlt, -⟩ := List.getElem?_eq_some_iff.mp hget
  refine ⟨.ok (), r.position + 1, rfl, ?_⟩
  rw [(Parser.advance_eq_ok (cursorAt_passes hlt)).mpr rfl]
  exact .ok (Nat.le_refl _) (by omega)

theorem Follows.inContext (h : Follows a d k q p) (context : GrammarContext) :
    Follows a d k (inContext context q) (inContext context p) := by
  intro fuel tokens r hahead hleft hfuel
  obtain ⟨outcome, stop, hq, hland⟩ := h fuel tokens { r with context } hahead hleft hfuel
  exact ⟨outcome, stop, by simp only [Reader.inContext, hq, Option.map_some], hland⟩

/-- The mode is back when the part is done, also if it fails. -/
theorem Follows.withColonSeparating (h : Follows a d k q p) (b : Bool) :
    Follows a d k (withColonSeparating b q) (withColonSeparating b p) := by
  intro fuel tokens r hahead hleft hfuel
  obtain ⟨outcome, stop, hq, hland⟩ :=
    h fuel tokens { r with colonSeparates := b } hahead hleft hfuel
  exact ⟨outcome, stop, by simp only [Reader.withColonSeparating, hq, Option.map_some], hland⟩

/-! ### Reading tokens -/

theorem Follows.advance {t : Token} (h : Follows Anywhere 0 k q p) :
    Follows (NextIs t) 0 k (advance >>= fun _ => q) (advance >>= fun _ => p) :=
  follows_advance.bind fun _ => h

/-- In the branch of the token it is known to be next. -/
theorem Follows.check {t : Token} {q' : Descent α} {p' : Parser α} (h : Follows (NextIs t) d k q p)
    (h' : Follows Anywhere d k q' p') :
    Follows a d k (check t >>= fun b => if b = true then q else q')
      (check t >>= fun b => if b = true then p else p') := by
  change Follows a d k (Reader.peek? >>= fun u => if decide (u = some t) = true then q else q')
    (Reader.peek? >>= fun u => if decide (u = some t) = true then p else p')
  refine .peek? h' fun u => ?_
  by_cases hu : u = t
  · subst hu
    simpa using h
  · simpa [hu] using h'.ahead

/-- Reading a token if it is there is a branch on the next token. -/
theorem eat_bind (t : Token) (f : Bool → Descent β) :
    (eat t >>= f) =
      check t >>= fun b => if b = true then advance >>= fun _ => f true else f false := by
  funext fuel tokens r
  by_cases h : tokens[r.position]?.map Located.node = some t <;>
    simp [eat, check, Reader.peek?, Bind.bind, Pure.pure, Reader.advance, h]

theorem parser_eat_bind (t : Token) (g : Bool → Parser β) :
    (eat t >>= g) =
      check t >>= fun b => if b = true then advance >>= fun _ => g true else g false := by
  funext m c
  obtain ⟨s, _ | ⟨u, ts⟩⟩ := c
  · rfl
  · by_cases h : u.node = t <;>
      simp [eat, check, Reader.peek?, Bind.bind, Pure.pure, Reader.advance, h]

/-- After the token there is one token less to read. -/
theorem Follows.eat_of_le {t : Token} {q' : Descent α} {p' : Parser α} (hd : d ≤ 1)
    (h : Follows Anywhere 0 k q p) (h' : Follows Anywhere d (k + 1) q' p') :
    Follows a d (k + 1) (eat t >>= fun b => if b = true then q else q')
      (eat t >>= fun b => if b = true then p else p') := by
  rw [eat_bind, parser_eat_bind]
  exact .check ((follows_advance.reads fun _ => h).atLeast hd) h'

/-- Where no token may be left nothing is to be shown. -/
theorem follows_of_no_level (q : Descent α) (p : Parser α) : Follows a d 0 q p :=
  fun _ _ _ _ hleft => absurd hleft (Nat.not_lt_zero _)

/-- The branch of the token starts one token further on, and promises nothing more. -/
theorem Follows.eat {t : Token} {q' : Descent α} {p' : Parser α} (h : Follows Anywhere 0 k q p)
    (h' : Follows Anywhere 0 k q' p') :
    Follows a 0 k (eat t >>= fun b => if b = true then q else q')
      (eat t >>= fun b => if b = true then p else p') := by
  rcases k with _ | k
  · exact follows_of_no_level _ _
  · exact .eat_of_le (Nat.zero_le 1) (h.below (Nat.le_succ k)) h'

/-- What is expected is read, so that one token at least is gone. -/
theorem follows_expect (t : Token) : Follows a 1 k (expect t) (expect t) := by
  rcases k with _ | k
  · exact follows_of_no_level _ _
  · exact .eat_of_le (Nat.le_refl 1) follows_previous (follows_unexpected _)

theorem Follows.expect {t : Token} {f : Span → Descent β} {g : Span → Parser β}
    (h : ∀ s, Follows Anywhere 0 k (f s) (g s)) : Follows a 0 k (expect t >>= f) (expect t >>= g) :=
  (follows_expect t).bind h

theorem follows_expectAtom : Follows a 1 k expectAtom expectAtom := by
  refine .next? (follows_unexpected _) fun ⟨t, s⟩ => ?_
  cases t with
  | atom name => exact follows_advance.first fun _ => .pure _
  | _ => exact follows_unexpected _

/-! ### Loops -/

/-- Where no token is left only what happens at the end counts. -/
theorem Follows.at_end {p' : Parser α} (h : Follows a d 1 q p)
    (hend : ∀ m s, p m ⟨s, []⟩ = p' m ⟨s, []⟩) : Follows a d 1 q p' := by
  intro fuel tokens r hahead hleft hfuel
  have hnil : cursorAt tokens r.position = ⟨previousSpan tokens r.position, []⟩ := by
    rw [cursorAt, List.drop_eq_nil_of_le (Nat.le_of_sub_eq_zero (Nat.lt_one_iff.mp hleft))]
  obtain ⟨outcome, stop, hq, hland⟩ := h fuel tokens r hahead hleft hfuel
  rw [hnil, hend, ← hnil] at hland
  exact ⟨outcome, stop, hq, hland⟩

/-- One round less is left behind the first one. Where no token is left the parser has no round
either, but one more would not change anything. -/
theorem Follows.round {j n n' : Nat} {F : Nat → Descent α} {G : Nat → Parser α}
    (hend : ∀ m s, G 1 m ⟨s, []⟩ = G 0 m ⟨s, []⟩)
    (hround : ∀ n n', j ≤ n → j ≤ n' + 1 → Follows a d (j + 1) (F (n + 1)) (G (n' + 1)))
    (hn : j + 1 ≤ n) (hn' : j ≤ n') : Follows a d (j + 1) (F n) (G n') := by
  obtain ⟨n, rfl⟩ := Nat.exists_eq_add_of_le' (Nat.le_of_add_left_le hn)
  rcases n' with _ | n'
  · obtain rfl : j = 0 := Nat.le_zero.mp hn'
    exact (hround n 0 (Nat.zero_le n) (Nat.zero_le 1)).at_end hend
  · exact hround n n' (Nat.le_of_succ_le_succ hn) hn'

section

variable {ι : Type} {F : Nat → ι → Descent α} {G : Nat → ι → Parser α}

/-- What comes round only after a token has been read needs as many rounds as there are tokens left,
and one more to see that there are none. -/
theorem follows_rounds (hend : ∀ i m s, G 1 i m ⟨s, []⟩ = G 0 i m ⟨s, []⟩)
    (hstep : ∀ j n n', j < k → (∀ i, Follows Anywhere d j (F n i) (G n' i)) →
      ∀ i, Follows Anywhere d (j + 1) (F (n + 1) i) (G (n' + 1) i))
    (j n n' : Nat) (hj : j ≤ k) (hn : j ≤ n) (hn' : j ≤ n' + 1) (i : ι) :
    Follows Anywhere d j (F n i) (G n' i) := by
  induction j generalizing n n' i with
  | zero => exact follows_of_no_level _ _
  | succ j ih =>
      refine .round (F := (F · i)) (G := (G · i)) (hend i) (fun n n' hn hn' => ?_) hn
        (Nat.le_of_succ_le_succ hn')
      exact hstep j n n' hj (fun i => ih n n' (Nat.le_of_lt hj) hn hn' i) i

/-- A loop of the machine has the fuel of the run, and that of the parser a round for each token
left. -/
theorem Follows.bounded {F : Nat → Descent α} {G : Nat → Parser α}
    (h : ∀ j n n', j ≤ k → j ≤ n → j ≤ n' + 1 → Follows a d j (F n) (G n')) :
    Follows a d k (bounded F) (bounded G) := by
  intro fuel tokens r hahead hleft hfuel
  have hlength : (cursorAt tokens r.position).rest.length = r.left tokens := List.length_drop
  rw [bounded_apply, hlength]
  exact h (r.left tokens + 1) fuel (r.left tokens) hleft hfuel (Nat.le_refl _) fuel tokens r hahead
    (Nat.lt_succ_self _) hfuel

/-- A loop whose rounds all read a token, in the machine and in the parser. -/
theorem follows_loop (hend : ∀ i m s, G 1 i m ⟨s, []⟩ = G 0 i m ⟨s, []⟩)
    (hstep : ∀ j n n', j < k → (∀ i, Follows Anywhere d j (F n i) (G n' i)) →
      ∀ i, Follows Anywhere d (j + 1) (F (n + 1) i) (G (n' + 1) i)) (i : ι) :
    Follows Anywhere d k (bounded fun n => F n i) (bounded fun n => G n i) :=
  .bounded fun j n n' hj hn hn' => follows_rounds hend hstep j n n' hj hn hn' i

end

/-- Further elements, each behind a separator that is read. -/
theorem Follows.more (h : Follows Anywhere e k q p) (t : Token) :
    Follows Anywhere 0 k (Reader.bounded (Reader.more t q)) (Reader.bounded (Reader.more t p)) := by
  refine follows_loop (F := fun n (_ : Unit) => Reader.more t q n)
    (G := fun n _ => Reader.more t p n) (fun _ _ _ => rfl) (fun j n n' hj ih _ => ?_) ()
  exact .eat_of_le (Nat.zero_le 1)
    (.bind (h.below (Nat.le_of_lt hj)) fun x => .bind (ih ()) fun xs => .pure _) (.pure [])

theorem Follows.separated (h : Follows Anywhere 1 k q p) (t : Token) :
    Follows Anywhere 1 k (separated t q) (separated t p) :=
  h.first fun _ => .bind (h.more t) fun _ => .pure _

theorem Follows.spanned (h : Follows a 1 k q p) : Follows a 1 k (spanned q) (spanned p) :=
  .position fun _ => h.first fun _ => .previous fun _ => .pure _

/-! ### Strings -/

/-- The loop over adjacent strings. -/
theorem stringTexts_follows {j n n' : Nat} (hn : j ≤ n) (hn' : j ≤ n' + 1) :
    Follows Anywhere 0 j (stringTexts n) (stringTexts n') := by
  refine follows_rounds (F := fun n (_ : Unit) => stringTexts n) (G := fun n _ => stringTexts n)
    (fun _ _ _ => rfl) (fun k n n' _ ih _ => ?_) j n n' (Nat.le_refl j) hn hn' ()
  refine .peek? (.pure _) fun t => ?_
  cases t with
  | string text => exact (follows_advance.reads fun _ => .bind (ih ()) fun _ => .pure _).weak
  | _ => exact .pure _

/-- Where a string is next, the first round reads it. -/
theorem strings_follows (text : String) : Follows (NextIs (.string text)) 1 k strings strings := by
  refine .spanned (.first (.bounded fun j n n' _ hn hn' => ?_) fun _ => .pure _)
  rcases j with _ | j
  · exact follows_of_no_level _ _
  refine .round (fun _ _ => rfl) (fun n n' hn hn' => ?_) hn (Nat.le_of_succ_le_succ hn')
  refine .peek?_of_next (follows_advance.reads fun _ => ?_)
  exact .bind (stringTexts_follows hn hn') fun _ => .pure _

/-! ### Rules -/

section

variable {rules : Rules Descent} {rules' : Rules Parser}
  (hr : ∀ nt, Follows Anywhere 1 k (rules nt) (rules' nt))

include hr

theorem exprs_follows : Follows Anywhere 1 k (exprs rules) (exprs rules') :=
  (hr .expression).separated _

theorem argPatterns_follows : Follows Anywhere 1 k (argPatterns rules) (argPatterns rules') :=
  (follows_expect _).first fun _ => .eat (.pure _) <|
    .bind ((exprs_follows hr).inContext _) fun _ => .expect fun _ => .pure _

theorem guardSequence_follows :
    Follows Anywhere 1 k (guardSequence rules) (guardSequence rules') :=
  ((exprs_follows hr).separated _).inContext _

theorem guards_follows : Follows Anywhere 0 k (guards rules) (guards rules') :=
  .eat (guardSequence_follows hr).weak (.pure _)

theorem clauseRest_follows (patterns : List (Located Expr)) :
    Follows Anywhere 0 k (clauseRest rules patterns) (clauseRest rules' patterns) :=
  .bind (guards_follows hr) fun _ => .expect fun _ => .bind (exprs_follows hr) fun _ => .pure _

theorem caseClause_follows : Follows Anywhere 1 k (caseClause rules) (caseClause rules') :=
  ((hr .expression).first fun p => clauseRest_follows hr [p]).spanned.inContext _

theorem caseClauses_follows : Follows Anywhere 1 k (caseClauses rules) (caseClauses rules') :=
  (caseClause_follows hr).separated _

theorem catchPatterns_follows :
    Follows Anywhere 1 k (catchPatterns rules) (catchPatterns rules') := by
  refine (hr .expression).first fun _ => .eat ?_ (.pure _)
  exact .bind (hr .expression) fun _ => .eat (.bind (hr .expression) fun _ => .pure _) (.pure _)

theorem catchClause_follows : Follows Anywhere 1 k (catchClause rules) (catchClause rules') := by
  refine .inContext (.spanned ?_) _
  exact ((catchPatterns_follows hr).withColonSeparating true).first fun ps =>
    clauseRest_follows hr ps

theorem catchClauses_follows : Follows Anywhere 1 k (catchClauses rules) (catchClauses rules') :=
  (catchClause_follows hr).separated _

omit hr in
theorem repeatedName_follows (name : Option String) :
    Follows Anywhere 0 k (repeatedName name) (repeatedName name) := by
  cases name with
  | none => exact .pure ()
  | some v =>
      refine .peek? (follows_unexpected _) fun t => ?_
      split
      · exact follows_advance.weak
      · exact follows_unexpected _

theorem funClause_follows (name : Option String) :
    Follows Anywhere 1 k (funClause rules name) (funClause rules' name) := by
  refine .inContext (.spanned (.second (repeatedName_follows name) fun _ => ?_)) _
  exact (argPatterns_follows hr).first fun ps => clauseRest_follows hr ps

theorem funClauses_follows (name : Option String) :
    Follows Anywhere 1 k (funClauses rules name) (funClauses rules' name) :=
  (funClause_follows hr name).separated _

theorem ifClause_follows : Follows Anywhere 1 k (ifClause rules) (ifClause rules') := by
  refine .inContext (.spanned ((guardSequence_follows hr).first fun _ => .expect fun _ => ?_)) _
  exact .bind (exprs_follows hr) fun _ => .pure _

theorem functionClause_follows :
    Follows Anywhere 1 k (functionClause rules) (functionClause rules') := by
  refine follows_expectAtom.first fun _ => .bind (argPatterns_follows hr) fun ps => ?_
  exact .bind (clauseRest_follows hr ps) fun _ => .previous fun _ => .pure _

theorem callArgs_follows : Follows Anywhere 1 (k + 1) (callArgs rules) (callArgs rules') :=
  (follows_expect _).reads fun _ => .eat (.pure _) <|
    .bind ((exprs_follows hr).withColonSeparating _) fun _ => .expect fun _ => .pure _

omit hr in
theorem braced_follows (h : Follows Anywhere 1 k q p) :
    Follows Anywhere 1 k (braced q) (braced p) :=
  (follows_expect _).first fun _ => .eat (.pure _) <|
    .bind (h.separated _) fun _ => .expect fun _ => .pure _

omit hr in
theorem fieldOperator_follows : Follows Anywhere 0 k fieldOperator fieldOperator :=
  .eat (.pure _) (.eat (.pure _) (follows_unexpected _))

theorem mapField_follows : Follows Anywhere 1 k (mapField rules) (mapField rules') :=
  (hr .expression).first fun _ => .bind fieldOperator_follows fun _ =>
    .bind (hr .expression) fun _ => .pure _

omit hr in
theorem fieldName_follows : Follows Anywhere 1 k fieldName fieldName := by
  refine .next? (follows_unexpected _) fun ⟨t, s⟩ => ?_
  cases t with
  | atom name | var name => exact follows_advance.first fun _ => .pure _
  | _ => exact follows_unexpected _

theorem recordField_follows : Follows Anywhere 1 k (recordField rules) (recordField rules') :=
  fieldName_follows.first fun _ => .expect fun _ => .bind (hr .expression) fun _ => .pure _

theorem hash_follows (base : Option (Located Expr)) :
    Follows Anywhere 1 (k + 1) (hash rules base) (hash rules' base) := by
  refine (follows_expect _).reads fun _ =>
    .check ?_ (.bind follows_expectAtom fun name => .eat ?_ ?_)
  · refine .bind ((braced_follows (mapField_follows hr)).inContext _).ahead fun _ => ?_
    exact .previous fun _ => .pure _
  · refine .bind follows_expectAtom fun field => ?_
    cases base with
    | none => exact .pure _
    | some e => exact .pure _
  · refine .bind ((braced_follows (recordField_follows hr)).inContext _) fun _ => ?_
    exact .previous fun _ => .pure _

theorem qualifier_follows : Follows Anywhere 1 k (qualifier rules) (qualifier rules') := by
  refine (hr .expression).first fun _ => .eat ?_ (.eat ?_ (.pure _))
  · exact .bind (hr .expression) fun _ => .pure _
  · exact .bind (hr .expression) fun _ => .pure _

theorem qualifiers_follows : Follows Anywhere 1 k (qualifiers rules) (qualifiers rules') :=
  ((qualifier_follows hr).separated _).inContext _

theorem listBody_follows : Follows Anywhere 0 k (listBody rules) (listBody rules') := by
  refine .check (.pure _) (.bind (hr .expression) fun _ => .eat ?_ ?_)
  · exact .bind (qualifiers_follows hr) fun _ => .pure _
  · refine .bind ((hr .expression).more _) fun _ => .eat ?_ (.pure _)
    exact .bind (hr .expression) fun _ => .pure _

omit hr in
theorem segmentType_follows : Follows Anywhere 1 k segmentType segmentType := by
  refine follows_expectAtom.first fun _ =>
    .eat (.peek? (follows_unexpected _) fun t => ?_) (.pure _)
  cases t with
  | integer n =>
      cases n with
      | small => exact .advance (.pure _)
      | big => exact follows_unexpected _
  | _ => exact follows_unexpected _

theorem segmentValue_follows : Follows Anywhere 1 k (segmentValue rules) (segmentValue rules') := by
  refine .peek? (hr .primary) fun t => ?_
  dsimp only [Option.bind_some]
  cases UnaryOp.ofToken? t with
  | none => exact (hr .primary).ahead
  | some op =>
      exact .position fun _ => follows_advance.first fun _ =>
        .bind (hr .primary) fun _ => .pure _

theorem segmentSize_follows : Follows Anywhere 0 k (segmentSize rules) (segmentSize rules') :=
  .eat (.bind (hr .primary) fun _ => .pure _) (.pure _)

omit hr in
theorem segmentTypes_follows : Follows Anywhere 0 k segmentTypes segmentTypes :=
  .eat (segmentType_follows.separated _).weak (.pure _)

theorem segment_follows : Follows Anywhere 1 k (segment rules) (segment rules') := by
  refine .inContext ((segmentValue_follows hr).first fun _ => ?_) _
  exact .bind (segmentSize_follows hr) fun _ => .bind segmentTypes_follows fun _ => .pure _

theorem binaryBody_follows : Follows Anywhere 0 k (binaryBody rules) (binaryBody rules') := by
  refine .check (.pure _) (.bind (segment_follows hr) fun s => .check ?_ ?_)
  · exact .ite (.fail _ _) (.advance (.bind (qualifiers_follows hr) fun _ => .pure _))
  · exact .bind ((segment_follows hr).more _) fun _ => .pure _

omit hr in
theorem enclosed_follows {q : Descent Expr} {p : Parser Expr} (h : Follows Anywhere e k q p)
    (opening closing : Token) :
    Follows Anywhere 1 (k + 1) (enclosed opening closing q) (enclosed opening closing p) :=
  (follows_expect _).reads fun _ => .bind h fun _ => .expect fun _ => .pure _

theorem tuple_follows : Follows Anywhere 1 (k + 1) (tuple rules) (tuple rules') :=
  enclosed_follows (.check (.pure _) (.bind (exprs_follows hr) fun _ => .pure _)) _ _

theorem block_follows : Follows Anywhere 1 (k + 1) (block rules) (block rules') :=
  enclosed_follows (.bind ((exprs_follows hr).inContext _) fun _ => .pure _) _ _

theorem caseExpr_follows : Follows Anywhere 1 (k + 1) (caseExpr rules) (caseExpr rules') := by
  refine enclosed_follows (.bind (hr .expression) fun _ => .expect fun _ => ?_) _ _
  exact .bind (caseClauses_follows hr) fun _ => .pure _

theorem ifExpr_follows : Follows Anywhere 1 (k + 1) (ifExpr rules) (ifExpr rules') :=
  enclosed_follows (.bind ((ifClause_follows hr).separated _) fun _ => .pure _) _ _

theorem after?_follows : Follows Anywhere 0 k (after? rules) (after? rules') := by
  refine .eat (.bind (hr .expression) fun _ => .expect fun _ => ?_) (.pure _)
  exact .bind (exprs_follows hr) fun _ => .pure _

theorem receiveClauses_follows :
    Follows Anywhere 0 k (receiveClauses rules) (receiveClauses rules') :=
  .check (.pure _) ((caseClauses_follows hr).weak)

theorem receiveExpr_follows :
    Follows Anywhere 1 (k + 1) (receiveExpr rules) (receiveExpr rules') := by
  refine enclosed_follows (.bind (receiveClauses_follows hr) fun _ => ?_) _ _
  exact .bind (after?_follows hr) fun _ => .pure _

omit hr in
theorem part_follows {α : Type} {q : Descent (List α)} {p : Parser (List α)}
    (h : Follows Anywhere e k q p) (word : Keyword) :
    Follows Anywhere 0 k (part word q) (part word p) :=
  .eat h.weak (.pure _)

theorem tryExpr_follows : Follows Anywhere 1 (k + 1) (tryExpr rules) (tryExpr rules') := by
  refine enclosed_follows (.bind (exprs_follows hr) fun _ => ?_) _ _
  refine .bind (part_follows (caseClauses_follows hr) _) fun _ => ?_
  refine .bind (part_follows (catchClauses_follows hr) _) fun _ => ?_
  refine .bind (part_follows (exprs_follows hr) _) fun _ => ?_
  exact .ite (follows_unexpected _) (.pure _)

theorem funBody_follows (start : Span) (name : Option String) :
    Follows Anywhere 0 k (funBody rules start name) (funBody rules' start name) :=
  .bind (funClauses_follows hr name) fun _ => .expect fun _ => .pure _

theorem funArity_follows (start : Span) (module : Option (Located Expr)) (function : Located Expr) :
    Follows Anywhere 0 k (funArity rules start module function)
      (funArity rules' start module function) :=
  .expect fun _ => .bind (hr .primary) fun _ => .pure _

theorem localReference_follows (start : Span) :
    Follows Anywhere 0 k (localReference rules start) (localReference rules' start) :=
  .bind (hr .primary) fun _ => funArity_follows hr start none _

theorem remoteReference_follows (start : Span) :
    Follows Anywhere 0 k (remoteReference rules start) (remoteReference rules' start) :=
  .bind (hr .primary) fun _ => .expect fun _ => .bind (hr .primary) fun _ =>
    funArity_follows hr start _ _

theorem funExpr_follows : Follows Anywhere 1 (k + 1) (funExpr rules) (funExpr rules') := by
  refine (follows_expect _).reads fun start => .peekTwo? fun t => ?_
  rcases funKind? t with _ | name | _ | _
  · exact follows_unexpected _
  · exact funBody_follows hr start name
  · exact localReference_follows hr start
  · exact remoteReference_follows hr start

omit hr in
theorem macroName_follows : Follows Anywhere 1 k macroName macroName := by
  refine .peek? (follows_unexpected _) fun t => ?_
  cases t with
  | atom name | var name => exact follows_advance.first fun _ => .pure _
  | _ => exact follows_unexpected _

theorem macroUse_follows : Follows Anywhere 1 (k + 1) (macroUse rules) (macroUse rules') := by
  refine (follows_expect _).reads fun _ => .bind macroName_follows fun _ => .check ?_ ?_
  · refine .bind ((callArgs_follows hr).below (Nat.le_succ k)).ahead fun _ => ?_
    exact .previous fun _ => .pure _
  · exact .previous fun _ => .pure _

theorem parenthesized_follows :
    Follows Anywhere 1 (k + 1) (parenthesized rules) (parenthesized rules') :=
  (follows_expect _).reads fun _ => .bind ((hr .expression).withColonSeparating _) fun _ =>
    .expect fun _ => .pure _

/-- The rule of a first token reads that token. -/
theorem compound_follows (t : Token) :
    Follows (NextIs t) 1 (k + 1) (compound rules t) (compound rules' t) := by
  cases t with
  | string text => exact strings_follows text
  | symbol s =>
      cases s with
      | leftParen => exact (parenthesized_follows hr).ahead
      | leftBrace => exact (tuple_follows hr).ahead
      | leftBracket => exact (enclosed_follows (listBody_follows hr) _ _).ahead
      | lessLess => exact (enclosed_follows (binaryBody_follows hr) _ _).ahead
      | hash => exact (hash_follows hr none).ahead
      | question => exact (macroUse_follows hr).ahead
      | _ => exact follows_unexpected _
  | keyword w =>
      cases w with
      | begin => exact (block_follows hr).ahead
      | case => exact (caseExpr_follows hr).ahead
      | if_ => exact (ifExpr_follows hr).ahead
      | receive => exact (receiveExpr_follows hr).ahead
      | try_ => exact (tryExpr_follows hr).ahead
      | fun_ => exact (funExpr_follows hr).ahead
      | _ => exact follows_unexpected _
  | _ => exact follows_unexpected _

theorem primary_follows : Follows Anywhere 1 (k + 1) (primary rules) (primary rules') := by
  refine .next? (follows_unexpected _) fun ⟨t, s⟩ => ?_
  dsimp only
  cases simple? t with
  | none => exact compound_follows hr t
  | some e => exact follows_advance.first fun _ => .pure _

theorem remoteCall_follows {t : Token} (module : Located Expr) :
    Follows (NextIs t) 1 (k + 1) (remoteCall rules module) (remoteCall rules' module) := by
  refine follows_advance.reads fun _ => .bind (hr .primary) fun function =>
    .check ?_ (follows_unexpected _)
  refine .bind ((callArgs_follows hr).below (Nat.le_succ k)).ahead fun _ => ?_
  exact .previous fun _ => .pure _

/-- The loop behind an operand, each round of which begins with a token. -/
theorem postfixes_follows (e : Located Expr) :
    Follows Anywhere 0 (k + 1) (bounded fun n => postfixes rules n e)
      (bounded fun n => postfixes rules' n e) := by
  refine follows_loop (F := postfixes rules) (G := postfixes rules') (fun _ _ _ => rfl)
    (fun j n n' hj ih e => ?_) e
  -- A round starts where fewer tokens may be left than at the first one.
  have hr' (nt) := (hr nt).below (Nat.le_of_lt_succ hj)
  refine .peek? (.pure e) fun t => ?_
  cases t with
  | symbol s =>
      cases s with
      | leftParen =>
          refine ((callArgs_follows hr').ahead.reads fun _ => ?_).weak
          exact .previous fun _ => ih _
      | colon =>
          exact .colonSeparates fun b =>
            .ite (.pure e) ((remoteCall_follows hr' e).reads fun e => ih e).weak
      | hash => exact ((hash_follows hr' (some e)).ahead.reads fun e => ih e).weak
      | _ => exact .pure e
  | _ => exact .pure e

theorem unary_follows : Follows Anywhere 1 (k + 1) (unary rules) (unary rules') := by
  have hplain : Follows Anywhere 1 (k + 1)
      (primary rules >>= fun e => bounded fun n => postfixes rules n e)
      (primary rules' >>= fun e => bounded fun n => postfixes rules' n e) :=
    (primary_follows hr).first fun e => postfixes_follows hr e
  refine .peek? hplain fun t => ?_
  dsimp only [Option.bind_some]
  cases UnaryOp.ofToken? t with
  | none => exact hplain.ahead
  | some op =>
      exact .position fun _ => follows_advance.reads fun _ =>
        .bind (hr .unary) fun _ => .pure _

/-- The loop over operators, each round of which begins with one. -/
theorem operations_follows (minimum : Nat) (lhs : Located Expr) :
    Follows Anywhere 0 (k + 1) (bounded fun n => operations rules minimum n lhs false)
      (bounded fun n => operations rules' minimum n lhs false) := by
  refine follows_loop (F := fun n (s : Located Expr × Bool) => operations rules minimum n s.1 s.2)
    (G := fun n s => operations rules' minimum n s.1 s.2) (fun _ _ _ => rfl)
    (fun j n n' hj ih ⟨lhs, afterComparison⟩ => ?_) (lhs, false)
  refine .next? (.pure lhs) fun ⟨t, s⟩ => ?_
  dsimp only
  cases connective? t with
  | none => exact .pure lhs
  | some op =>
      refine .ite (.pure lhs) (.ite (.fail _ _) (follows_advance.reads fun _ => ?_).weak)
      exact .bind ((hr _).below (Nat.le_of_lt_succ hj)) fun rhs => ih (_, _)

theorem binary_follows (minimum : Nat) :
    Follows Anywhere 1 (k + 1) (binary rules minimum) (binary rules' minimum) :=
  (unary_follows hr).first fun lhs => operations_follows hr minimum lhs

theorem expression_follows : Follows Anywhere 1 (k + 1) (expression rules) (expression rules') := by
  refine .check ?_ (binary_follows hr 0)
  exact (follows_expect _).reads fun _ => .bind (hr .expression) fun _ => .pure _

/-- Every rule reads a token and ends, with one level more than the rules that it calls. -/
theorem step_follows (nt : Nonterminal) :
    Follows Anywhere 1 (k + 1) (step rules nt) (step rules' nt) := by
  cases nt with
  | expression => exact expression_follows hr
  | binary minimum => exact binary_follows hr minimum
  | unary => exact unary_follows hr
  | primary => exact primary_follows hr

end

/-- Calls are bounded by the fuel of the run, and in the parser by the tokens left. -/
theorem within_follows {j n n' : Nat} (hn : j ≤ n) (hn' : j ≤ n' + 1) (nt : Nonterminal) :
    Follows Anywhere 1 j (within n nt) (within n' nt) := by
  refine follows_rounds (F := within) (G := within) (fun nt m s => ?_)
    (fun k n n' _ ih nt => step_follows ih nt) j n n' (Nat.le_refl j) hn hn' nt
  cases nt <;> rfl

theorem withRules_follows {f : Rules Descent → Descent α} {g : Rules Parser → Parser α}
    (h : ∀ {k rules rules'}, (∀ nt, Follows Anywhere 1 k (rules nt) (rules' nt)) →
      Follows Anywhere d k (f rules) (g rules')) :
    Follows Anywhere d k (withRules f) (withRules g) :=
  .bounded fun _ _ _ _ hn hn' => h (within_follows hn hn')

/-! ### The procedures of the descent -/

/-- The parts of the grammar that call each other, with what each of them reads. -/
inductive Procedure : Type → Type
  | expression : Procedure (Located Expr)
  | binary (minimum : Nat) : Procedure (Located Expr)
  | unary : Procedure (Located Expr)
  | primary : Procedure (Located Expr)
  | caseClause : Procedure (Located Clause)
  | catchClause : Procedure (Located Clause)
  | funClause (name : Option String) : Procedure (Located Clause)
  | functionClause : Procedure (Located String × Located Clause)
  | qualifier : Procedure Qualifier

namespace Procedure

/-- The part of the grammar, as a parser or as the machine. -/
def run {m : Type → Type} [Monad m] [Reader m] {α : Type} : Procedure α → m α
  | expression => withRules (· .expression)
  | binary minimum => withRules (· (.binary minimum))
  | unary => withRules (· .unary)
  | primary => withRules (· .primary)
  | caseClause => withRules Grammar.caseClause
  | catchClause => withRules Grammar.catchClause
  | funClause name => withRules (Grammar.funClause · name)
  | functionClause => withRules Grammar.functionClause
  | qualifier => withRules Grammar.qualifier

/-- Every part of the grammar ends as its parser does, has read a token, and leaves the mode as it
was. -/
theorem follows (procedure : Procedure α) : Follows Anywhere 1 k procedure.run procedure.run := by
  cases procedure with
  | expression => exact withRules_follows fun hr => hr .expression
  | binary minimum => exact withRules_follows fun hr => hr (.binary minimum)
  | unary => exact withRules_follows fun hr => hr .unary
  | primary => exact withRules_follows fun hr => hr .primary
  | caseClause => exact withRules_follows caseClause_follows
  | catchClause => exact withRules_follows catchClause_follows
  | funClause name => exact withRules_follows fun hr => funClause_follows hr name
  | functionClause => exact withRules_follows functionClause_follows
  | qualifier => exact withRules_follows qualifier_follows

end Procedure

/-- Every part of the grammar comes to an end, on any tokens and from any registers, with any fuel
above the number of tokens left. It has the outcome of its parser, leaves the mode as it was whether
it succeeds or fails, and if it succeeds it has read a token and none that is not there. -/
theorem descent_ends (procedure : Procedure α) (tokens : List (Located Token)) (r : Registers)
    (spare : Nat) :
    ∃ outcome r',
      (procedure.run : Descent α) (r.left tokens + 1 + spare) tokens r = some (outcome, r') ∧
      (procedure.run : Parser α) r.mode (cursorAt tokens r.position) =
        outcome.map (·, cursorAt tokens r'.position) ∧
      r'.context = r.context ∧ r'.colonSeparates = r.colonSeparates ∧
      ∀ x, outcome = .ok x → r.position < r'.position ∧ r'.position ≤ tokens.length := by
  obtain ⟨outcome, stop, hrun, hland⟩ :=
    procedure.follows (r.left tokens + 1 + spare) tokens r True.intro
    (Nat.lt_succ_self _) (by omega)
  refine ⟨outcome, _, hrun, ?_, rfl, rfl, ?_⟩
  · generalize (procedure.run : Parser α) r.mode _ = result at hland ⊢
    cases hland <;> rfl
  · rintro x rfl
    generalize (procedure.run : Parser α) r.mode _ = result at hland
    cases hland with
    | ok hleast hstop =>
        dsimp only
        omega

end Descent

end ErlangFragment
