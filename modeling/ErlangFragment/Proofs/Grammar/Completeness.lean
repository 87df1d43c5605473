import ErlangFragment.Proofs.Grammar.Derivation

/-! Completeness of the expression grammar: its rules read every derivation, given a depth of at
least the number of its tokens. -/

namespace ErlangFragment.Grammar

open ErlangFragment.Parser ErlangFragment.Reader

/-! ### First tokens -/

def startsPrimary : Token → Bool
  | .var _ | .atom _ | .integer _ | .float _ | .char _ | .string _ => true
  | .symbol s => s ∈ [.leftParen, .leftBrace, .leftBracket, .lessLess, .hash, .question]
  | .keyword k => k ∈ [.begin, .case, .if_, .receive, .try_, .fun_]
  | _ => false

def startsUnary (t : Token) : Bool := startsPrimary t || (UnaryOp.ofToken? t).isSome

def startsExpression (t : Token) : Bool := startsUnary t || t = .keyword .catch_

/-- The tokens that a name in a reference or a macro may be. -/
def startsName : Token → Bool
  | .atom _ | .var _ => true
  | _ => false

/-- The tokens are not empty, and the first one is of this kind. -/
def Begins (f : Token → Bool) : List (Located Token) → Prop
  | [] => False
  | t :: _ => f t.node = true

theorem Begins.of_eq {f : Token → Bool} {t : Located Token} {k : Token} {ts : List (Located Token)}
    (h : t.node = k) (hk : f k = true) : Begins f (t :: ts) := by
  subst h
  exact hk

theorem Begins.append {f : Token → Bool} {ts : List (Located Token)} (h : Begins f ts)
    (us : List (Located Token)) : Begins f (ts ++ us) := by
  cases ts with
  | nil => exact h.elim
  | cons t ts => exact h

theorem Begins.mono {f g : Token → Bool} {ts : List (Located Token)} (h : Begins f ts)
    (hfg : ∀ t, f t = true → g t = true) : Begins g ts := by
  cases ts with
  | nil => exact h
  | cons t ts => exact hfg _ h

theorem Begins.ne_nil {f : Token → Bool} {ts : List (Located Token)} (h : Begins f ts) :
    ts ≠ [] := by
  rintro rfl
  exact h

/-- The token behind the cursor is of the kind that the tokens begin with. -/
theorem Begins.next {f : Token → Bool} {ts : List (Located Token)} (h : Begins f ts)
    {c c' : Cursor} (hp : c.Passes ts c') : ∃ t, c.next = some t ∧ f t = true := by
  cases ts with
  | nil => exact h.elim
  | cons t ts => exact ⟨t.node, hp.next_token, h⟩

/-- Tokens that begin in one way have no token of another kind in front. -/
theorem Begins.next_ne {f : Token → Bool} {ts : List (Located Token)} (h : Begins f ts)
    {c c' : Cursor} (hp : c.Passes ts c') {t : Token} (ht : f t = false) : c.next ≠ some t := by
  obtain ⟨u, hu, hf⟩ := h.next hp
  rintro hn
  simp_all

/-- How the tokens of a phrase begin. Nothing is told of phrases that may be empty, and of those
whose first token nobody asks for. -/
def Phrase.Starts : Phrase → List (Located Token) → Prop
  | rule .primary => Begins startsPrimary
  | rule .unary | rule (.binary _) | segmentValue | segment => Begins startsUnary
  | rule .expression | caseClause | mapField => Begins startsExpression
  | separated _ p => p.Starts
  | recordField => Begins startsName
  | braced _ => Begins fun t => t = .symbol .leftBrace
  | arguments | argPatterns | funClause none => Begins fun t => t = .symbol .leftParen
  | _ => fun _ => True

theorem Phrase.Starts.append {ph : Phrase} {ts : List (Located Token)} (h : ph.Starts ts)
    (us : List (Located Token)) : ph.Starts (ts ++ us) := by
  induction ph with
  | separated s p ih => exact ih h
  | rule nt => cases nt <;> exact Begins.append h us
  | funClause name =>
      cases name
      · exact Begins.append h us
      · trivial
  | _ => first | trivial | exact Begins.append h us

theorem startsPrimary_of_simple {t : Token} {e : Expr} (h : simple? t = some e) :
    startsPrimary t = true := by
  cases t <;> simp_all [simple?, startsPrimary]

theorem startsUnary_of_startsPrimary {t : Token} (h : startsPrimary t = true) :
    startsUnary t = true := by
  simp [startsUnary, h]

theorem startsExpression_of_startsUnary {t : Token} (h : startsUnary t = true) :
    startsExpression t = true := by
  simp [startsExpression, h]

/-- The tokens of a phrase begin as the phrase says. -/
theorem Derivation.starts {b : Bool} {ph : Phrase} {r : ph.Result} {toks : List (Located Token)}
    {next : Option Token} (d : Derivation b ph r toks next) : ph.Starts toks := by
  induction d with
  | simple h => exact startsPrimary_of_simple h
  | @strings _ texts ts _ hne hrun _ =>
      cases ts with
      | nil => exact absurd rfl hne
      | cons t ts => cases texts <;> simp_all [StringRun, Phrase.Starts, Begins, startsPrimary]
  | separated _ _ ih _ => exact ih.append _
  | operators _ ih => exact ih.mono fun _ => startsExpression_of_startsUnary
  | binary _ _ ih _ => exact ih.append _
  | unaryOp h _ _ => simp [Phrase.Starts, Begins, startsUnary, h]
  | applied _ _ ih _ => exact (ih.mono fun _ => startsUnary_of_startsPrimary).append _
  | caseClause _ _ ih _ => exact ih.append _
  | funClause _ _ ih _ => exact ih.append _
  | assocField _ _ _ ih _ => exact ih.append _
  | exactField _ _ _ ih _ => exact ih.append _
  | signedSegmentValue h _ _ => simp [Phrase.Starts, Begins, startsUnary, h]
  | segmentValue _ ih => exact ih.mono fun _ => startsUnary_of_startsPrimary
  | segment _ _ _ ih _ _ => exact ih.append _
  | recordField h _ _ _ => rcases h with h | h <;> simp [Phrase.Starts, Begins, h, startsName]
  | _ => first | exact True.intro | exact .of_eq ‹_› rfl

theorem Derivation.next_arguments {b : Bool} {args : List (Located Expr)}
    {ts : List (Located Token)} {next : Option Token} (d : Derivation b .arguments args ts next)
    {c c' : Cursor}
    (hp : c.Passes ts c') : c.next = some (.symbol .leftParen) := by
  obtain ⟨t, ht, hs⟩ := Begins.next d.starts hp
  rw [ht, of_decide_eq_true hs]

theorem Derivation.next_braced {b : Bool} {ph : Phrase} {fs : List ph.Result}
    {ts : List (Located Token)} {next : Option Token} (d : Derivation b (.braced ph) fs ts next)
    {c c' : Cursor} (hp : c.Passes ts c') : c.next = some (.symbol .leftBrace) := by
  obtain ⟨t, ht, hs⟩ := Begins.next d.starts hp
  rw [ht, of_decide_eq_true hs]

/-! ### Lists -/

/-- The parser reads every derivation of the phrase that has at most `n` tokens. -/
def Complete (n : Nat) (ph : Phrase) (p : Parser ph.Result) : Prop :=
  ∀ ⦃m c r c' toks⦄, Derivation m.colonSeparates ph r toks c'.next → c.Passes toks c' →
    toks.length ≤ n → p m c = .ok (r, c')

/-- Where errors are said to be does not matter to what is read. -/
theorem Complete.inContext {n : Nat} {ph : Phrase} {p : Parser ph.Result} (h : Complete n ph p)
    (context : GrammarContext) : Complete n ph (inContext context p) :=
  fun m _ _ _ _ d hp hn => h (m := { m with context := context }) d hp hn

/-- The loop over further elements reads as many as were derived, by the fuel that the tokens give
it. -/
theorem more_complete {n : Nat} {ph : Phrase} {p : Parser ph.Result} (h : Complete n ph p)
    {s : Token} {k : Nat} {m : Mode} {c c' : Cursor} {r : List ph.Result}
    {toks : List (Located Token)}
    (d : Derivation m.colonSeparates (.more s ph) r toks c'.next) (hp : c.Passes toks c')
    (hn : toks.length ≤ n) (hk : toks.length ≤ k) : more s p k m c = .ok (r, c') := by
  induction k generalizing c r toks with
  | zero =>
      obtain rfl := List.length_eq_zero_iff.mp (Nat.le_zero.mp hk)
      cases d
      exact pure_eq_ok.mpr ⟨rfl, hp.eq_of_nil⟩
  | succ k ih =>
      rw [more, eat_bind_eq_ok]
      cases d with
      | moreNil hne =>
          rw [hp.next_eq]
          exact .inr ⟨hne, pure_eq_ok.mpr ⟨rfl, hp.eq_of_nil⟩⟩
      | moreCons ht da das =>
          obtain ⟨c₁, pt, hp⟩ := hp.split_cons
          obtain ⟨c₂, hts, hus⟩ := hp.split_append
          rw [← hus.next_eq] at da
          simp only [List.length_cons, List.length_append] at hn hk
          simp only [bind_eq_ok, pure_eq_ok]
          exact .inl ⟨_, c₁, ht, pt, _, c₂, h da hts (by omega), _, c',
            ih das hus (by omega) (by omega), rfl, rfl⟩

/-- A separated sequence is read if its elements are. -/
theorem Complete.separated {n : Nat} {ph : Phrase} {p : Parser ph.Result} (h : Complete n ph p)
    (s : Token) : Complete n (.separated s ph) (separated s p) := by
  intro m c r c' toks d hp hn
  cases d with
  | separated da das =>
      obtain ⟨c₁, hts, hus⟩ := hp.split_append
      rw [← hus.next_eq] at da
      rw [List.length_append] at hn
      simp only [Reader.separated, bind_eq_ok, pure_eq_ok, bounded_apply]
      exact ⟨_, c₁, h da hts (by omega), _, c',
        more_complete h das hus (by omega) (by rw [hus.length_eq]; omega), rfl, rfl⟩

/-- The first element is read by itself, and behind it stands a separator or what stands behind all
of them. -/
theorem Complete.separated_split {n : Nat} {ph : Phrase} {p : Parser ph.Result}
    (h : Complete n ph p) {s : Token} {m : Mode} {c c' : Cursor} {r : List ph.Result}
    {toks : List (Located Token)} (d : Derivation m.colonSeparates (.separated s ph) r toks c'.next)
    (hp : c.Passes toks c') (hn : toks.length ≤ n) :
    ∃ a as c₁, r = a :: as ∧ p m c = .ok (a, c₁) ∧ (c₁.next = some s ∨ c₁.next = c'.next) ∧
      bounded (more s p) m c₁ = .ok (as, c') := by
  cases d with
  | separated da das =>
      obtain ⟨c₁, hts, hus⟩ := hp.split_append
      rw [List.length_append] at hn
      refine ⟨_, _, c₁, rfl, ?_, ?_, ?_⟩
      · rw [← hus.next_eq] at da
        exact h da hts (by omega)
      · cases das with
        | moreNil _ => exact .inr (congrArg Cursor.next hus.eq_of_nil.symm)
        | moreCons ht _ _ => exact .inl (hus.next_token.trans (congrArg some ht))
      · rw [bounded_apply]
        exact more_complete h das hus (by omega) (by rw [hus.length_eq]; omega)

/-- Fields in braces are read if each of them is, and no field begins with the closing brace. -/
theorem Complete.braced {n : Nat} {ph : Phrase} {p : Parser ph.Result} (h : Complete n ph p)
    {f : Token → Bool} (hs : ∀ ts, ph.Starts ts → Begins f ts)
    (hf : f (.symbol .rightBrace) = false) : Complete (n + 2) (.braced ph) (braced p) := by
  intro m c r c' toks d hp hn
  rw [Grammar.braced, bracketed_eq_ok]
  cases d with
  | bracedNil hl hr =>
      obtain ⟨c₁, pl, pr⟩ := hp.split_cons
      exact ⟨_, c₁, hl, pl, .inl ⟨rfl, _, hr, pr⟩⟩
  | braced hl hr d =>
      obtain ⟨c₁, pl, hp⟩ := hp.split_cons
      obtain ⟨c₂, hts, pr⟩ := hp.split_append
      simp only [List.length_cons, List.length_append, List.length_nil] at hn
      have hne := (hs _ d.starts).next_ne hts hf
      rw [← pr.next_token] at d
      exact ⟨_, c₁, hl, pl, .inr ⟨hne, c₂, _, h.separated _ d hts (by omega), hr, pr⟩⟩

/-- An optional part is read if its elements are: the word in front of it tells whether it is
there. -/
theorem Complete.part {n : Nat} {ph : Phrase} {p : Parser ph.Result} (h : Complete n ph p)
    (w : Keyword) (s : Token) : Complete n (.part w s ph) (part w (Reader.separated s p)) := by
  intro m c r c' toks d hp hn
  rw [Grammar.part, eat_bind_eq_ok]
  cases d with
  | partNone hne =>
      rw [hp.next_eq]
      exact .inr ⟨hne, pure_eq_ok.mpr ⟨rfl, hp.eq_of_nil⟩⟩
  | partSome ht d =>
      obtain ⟨c₁, pt, hts⟩ := hp.split_cons
      rw [List.length_cons] at hn
      exact .inl ⟨_, c₁, ht, pt, h.separated _ d hts (by omega)⟩

section

variable {n : Nat} {rules : Rules Parser} (hr : ∀ nt, Complete n (.rule nt) (rules nt))
include hr

theorem exprs_complete : Complete n .exprs (exprs rules) := (hr .expression).separated _

/-! ### Clauses -/

theorem argPatterns_complete : Complete n .argPatterns (argPatterns rules) := by
  intro m c r c' toks d hp hn
  rw [argPatterns, bracketed_eq_ok]
  cases d with
  | argPatternsNil hl hr =>
      obtain ⟨c₁, pl, pr⟩ := hp.split_cons
      exact ⟨_, c₁, hl, pl, .inl ⟨rfl, _, hr, pr⟩⟩
  | argPatterns hl hu d =>
      obtain ⟨c₁, pl, hp⟩ := hp.split_cons
      obtain ⟨c₂, hts, pr⟩ := hp.split_append
      simp only [List.length_cons, List.length_append] at hn
      have hne := Begins.next_ne d.starts hts (t := .symbol .rightParen) rfl
      rw [← pr.next_token] at d
      exact ⟨_, c₁, hl, pl, .inr ⟨hne, c₂, _,
        (exprs_complete hr).inContext _ d hts (by omega), hu, pr⟩⟩

theorem callArgs_complete : Complete n .arguments (callArgs rules) := by
  intro m c r c' toks d hp hn
  rw [callArgs, bracketed_eq_ok]
  cases d with
  | argumentsNil hl hr =>
      obtain ⟨c₁, pl, pr⟩ := hp.split_cons
      exact ⟨_, c₁, hl, pl, .inl ⟨rfl, _, hr, pr⟩⟩
  | arguments hl hu d =>
      obtain ⟨c₁, pl, hp⟩ := hp.split_cons
      obtain ⟨c₂, hts, pr⟩ := hp.split_append
      simp only [List.length_cons, List.length_append] at hn
      have hne := Begins.next_ne d.starts hts (t := .symbol .rightParen) rfl
      rw [← pr.next_token] at d
      refine ⟨_, c₁, hl, pl, .inr ⟨hne, c₂, _, ?_, hu, pr⟩⟩
      exact exprs_complete hr (m := { m with colonSeparates := false }) d hts (by omega)

theorem guardSequence_complete : Complete n .guardSequence (guardSequence rules) :=
  ((exprs_complete hr).separated _).inContext _

/-- Guards and a body behind the patterns of a clause. -/
theorem clauseRest_complete (patterns : List (Located Expr)) :
    Complete n (.clauseRest patterns) (clauseRest rules patterns) := by
  intro m c r c' toks d hp hn
  rw [clauseRest, guards, bind_eq_ok]
  cases d with
  | unguarded ha db =>
      obtain ⟨c₁, pa, hts⟩ := hp.split_cons
      rw [List.length_cons] at hn
      refine ⟨[], c, ?_, ?_⟩
      · rw [eat_bind_eq_ok]
        exact .inr ⟨by simp [hp.next_token, ha], pure_eq_ok.mpr ⟨rfl, rfl⟩⟩
      · rw [expect_bind_eq_ok]
        refine ⟨_, c₁, ha, pa, ?_⟩
        simp only [bind_eq_ok, pure_eq_ok]
        exact ⟨_, c', exprs_complete hr db hts (by omega), rfl, rfl⟩
  | @guarded _ _ gs _ _ _ _ _ _ hw dg ha db =>
      obtain ⟨c₁, pw, hp⟩ := hp.split_cons
      obtain ⟨c₂, hts, hp⟩ := hp.split_append
      obtain ⟨c₃, pa, hus⟩ := hp.split_cons
      simp only [List.length_cons, List.length_append] at hn
      rw [← pa.next_token] at dg
      refine ⟨gs, c₂, ?_, ?_⟩
      · rw [eat_bind_eq_ok]
        exact .inl ⟨_, c₁, hw, pw, guardSequence_complete hr dg hts (by omega)⟩
      · rw [expect_bind_eq_ok]
        refine ⟨_, c₃, ha, pa, ?_⟩
        simp only [bind_eq_ok, pure_eq_ok]
        exact ⟨_, c', exprs_complete hr db hus (by omega), rfl, rfl⟩

theorem caseClause_complete : Complete n .caseClause (caseClause rules) := by
  intro m c r c' toks d hp hn
  rw [caseClause, inContext_apply, spanned_eq_ok, bind_eq_ok]
  cases d with
  | caseClause dp dc =>
      obtain ⟨c₁, hts, hus⟩ := hp.split_append
      rw [List.length_append] at hn
      rw [← hus.next_eq] at dp
      refine ⟨⟨_, c₁, hr .expression dp hts (by omega), ?_⟩,
        (hp.extent_eq (by simp [dc.clauseRest_ne_nil])).symm⟩
      exact clauseRest_complete hr _ dc hus (by omega)

/-- The patterns of a catch clause, with what is filled in for the class and the stacktrace. -/
theorem catchPatterns_complete : Complete n .catchPatterns (catchPatterns rules) := by
  intro m c r c' toks d hp hn
  rw [catchPatterns, bind_eq_ok]
  cases d with
  | reason de hne =>
      refine ⟨_, c', hr .expression de hp hn, ?_⟩
      rw [eat_bind_eq_ok]
      exact .inr ⟨hne, pure_eq_ok.mpr ⟨rfl, rfl⟩⟩
  | classReason de ht df hne =>
      obtain ⟨c₁, hts, hp⟩ := hp.split_append
      obtain ⟨c₂, pt, hus⟩ := hp.split_cons
      simp only [List.length_cons, List.length_append] at hn
      rw [← pt.next_token] at de
      refine ⟨_, c₁, hr .expression de hts (by omega), ?_⟩
      rw [eat_bind_eq_ok]
      refine .inl ⟨_, c₂, ht, pt, ?_⟩
      rw [bind_eq_ok]
      refine ⟨_, c', hr .expression df hus (by omega), ?_⟩
      rw [eat_bind_eq_ok]
      exact .inr ⟨hne, pure_eq_ok.mpr ⟨rfl, rfl⟩⟩
  | classReasonStack de ht df hu dg =>
      obtain ⟨c₁, hts, hp⟩ := hp.split_append
      obtain ⟨c₂, pt, hp⟩ := hp.split_cons
      obtain ⟨c₃, hus, hp⟩ := hp.split_append
      obtain ⟨c₄, pu, hvs⟩ := hp.split_cons
      simp only [List.length_cons, List.length_append] at hn
      rw [← pt.next_token] at de
      rw [← pu.next_token] at df
      refine ⟨_, c₁, hr .expression de hts (by omega), ?_⟩
      rw [eat_bind_eq_ok]
      refine .inl ⟨_, c₂, ht, pt, ?_⟩
      rw [bind_eq_ok]
      refine ⟨_, c₃, hr .expression df hus (by omega), ?_⟩
      rw [eat_bind_eq_ok]
      refine .inl ⟨_, c₄, hu, pu, ?_⟩
      simp only [bind_eq_ok, pure_eq_ok]
      exact ⟨_, c', hr .expression dg hvs (by omega), rfl, rfl⟩

theorem catchClause_complete : Complete n .catchClause (catchClause rules) := by
  intro m c r c' toks d hp hn
  rw [catchClause, inContext_apply, spanned_eq_ok, bind_eq_ok]
  cases d with
  | catchClause dp dc =>
      obtain ⟨c₁, hts, hus⟩ := hp.split_append
      rw [List.length_append] at hn
      rw [← hus.next_eq] at dp
      refine ⟨⟨_, c₁, ?_, clauseRest_complete hr _ dc hus (by omega)⟩, (hp.extent_eq ?_).symm⟩
      · rw [withColonSeparating_apply]
        exact catchPatterns_complete hr (m := ⟨_, true⟩) dp hts (by omega)
      · simp [dc.clauseRest_ne_nil]

omit hr in
/-- A clause of a named fun repeats the name. -/
theorem repeatedName_complete {name : String} {m : Mode} {c c' : Cursor} {t : Located Token}
    (ht : t.node = .var name) (pt : c.Passes [t] c') :
    (repeatedName (some name) : Parser Unit) m c = .ok ((), c') := by
  rw [repeatedName, peek?_bind, if_pos (pt.next_token.trans (by rw [ht]))]
  exact (advance_eq_ok pt).mpr rfl

theorem funClause_complete (name : Option String) :
    Complete n (.funClause name) (funClause rules name) := by
  intro m c r c' toks d hp hn
  rw [funClause, inContext_apply, spanned_eq_ok, bind_eq_ok]
  cases d with
  | funClause dp dc =>
      obtain ⟨c₁, hts, hus⟩ := hp.split_append
      rw [List.length_append] at hn
      rw [← hus.next_eq] at dp
      refine ⟨⟨(), c, rfl, ?_⟩, (hp.extent_eq (by simp [dc.clauseRest_ne_nil])).symm⟩
      rw [bind_eq_ok]
      exact ⟨_, c₁, argPatterns_complete hr dp hts (by omega),
        clauseRest_complete hr _ dc hus (by omega)⟩
  | namedFunClause ht dp dc =>
      have hs := (hp.extent_eq (by simp)).symm
      obtain ⟨c₁, pt, hp⟩ := hp.split_cons
      obtain ⟨c₂, hts, hus⟩ := hp.split_append
      simp only [List.length_cons, List.length_append] at hn
      rw [← hus.next_eq] at dp
      refine ⟨⟨(), c₁, repeatedName_complete ht pt, ?_⟩, hs⟩
      rw [bind_eq_ok]
      exact ⟨_, c₂, argPatterns_complete hr dp hts (by omega),
        clauseRest_complete hr _ dc hus (by omega)⟩

theorem ifClause_complete : Complete n .ifClause (ifClause rules) := by
  intro m c r c' toks d hp hn
  rw [ifClause, inContext_apply, spanned_eq_ok, bind_eq_ok]
  cases d with
  | ifClause dg ha db =>
      have hs := (hp.extent_eq (by simp)).symm
      obtain ⟨c₁, hts, hp⟩ := hp.split_append
      obtain ⟨c₂, pa, hus⟩ := hp.split_cons
      simp only [List.length_cons, List.length_append] at hn
      rw [← pa.next_token] at dg
      refine ⟨⟨_, c₁, guardSequence_complete hr dg hts (by omega), ?_⟩, hs⟩
      rw [expect_bind_eq_ok]
      refine ⟨_, c₂, ha, pa, ?_⟩
      simp only [bind_eq_ok, pure_eq_ok]
      exact ⟨_, c', exprs_complete hr db hus (by omega), rfl, rfl⟩

/-! ### Fields, qualifiers and segments -/

theorem mapField_complete : Complete n .mapField (mapField rules) := by
  intro m c r c' toks d hp hn
  simp only [mapField, bind_eq_ok, pure_eq_ok]
  cases d with
  | assocField dk ht dv =>
      obtain ⟨c₁, hts, hp⟩ := hp.split_append
      obtain ⟨c₂, pt, hus⟩ := hp.split_cons
      simp only [List.length_cons, List.length_append] at hn
      rw [← pt.next_token] at dk
      refine ⟨_, c₁, hr .expression dk hts (by omega), .assoc, c₂, ?_, _, c',
        hr .expression dv hus (by omega), rfl, rfl⟩
      rw [fieldOperator, eat_bind_eq_ok]
      exact .inl ⟨_, c₂, ht, pt, pure_eq_ok.mpr ⟨rfl, rfl⟩⟩
  | exactField dk ht dv =>
      obtain ⟨c₁, hts, hp⟩ := hp.split_append
      obtain ⟨c₂, pt, hus⟩ := hp.split_cons
      simp only [List.length_cons, List.length_append] at hn
      rw [← pt.next_token] at dk
      refine ⟨_, c₁, hr .expression dk hts (by omega), .exact, c₂, ?_, _, c',
        hr .expression dv hus (by omega), rfl, rfl⟩
      rw [fieldOperator, eat_bind_eq_ok]
      refine .inr ⟨by simp [pt.next_token, ht], ?_⟩
      rw [eat_bind_eq_ok]
      exact .inl ⟨_, c₂, ht, pt, pure_eq_ok.mpr ⟨rfl, rfl⟩⟩

theorem recordField_complete : Complete n .recordField (recordField rules) := by
  intro m c r c' toks d hp hn
  rw [recordField, bind_eq_ok]
  cases d with
  | recordField hname ht dv =>
      obtain ⟨c₁, pn, hp⟩ := hp.split_cons
      obtain ⟨c₂, pt, hts⟩ := hp.split_cons
      simp only [List.length_cons] at hn
      refine ⟨⟨_, _⟩, c₁, fieldName_eq_ok.mpr ⟨_, hname, rfl, pn⟩, ?_⟩
      rw [expect_bind_eq_ok]
      refine ⟨_, c₂, ht, pt, ?_⟩
      simp only [bind_eq_ok, pure_eq_ok]
      exact ⟨_, c', hr .expression dv hts (by omega), rfl, rfl⟩

theorem qualifier_complete : Complete n .qualifier (qualifier rules) := by
  intro m c r c' toks d hp hn
  rw [qualifier, bind_eq_ok]
  cases d with
  | generator dp ht ds =>
      obtain ⟨c₁, hts, hp⟩ := hp.split_append
      obtain ⟨c₂, pt, hus⟩ := hp.split_cons
      simp only [List.length_cons, List.length_append] at hn
      rw [← pt.next_token] at dp
      refine ⟨_, c₁, hr .expression dp hts (by omega), ?_⟩
      rw [eat_bind_eq_ok]
      refine .inl ⟨_, c₂, ht, pt, ?_⟩
      simp only [bind_eq_ok, pure_eq_ok]
      exact ⟨_, c', hr .expression ds hus (by omega), rfl, rfl⟩
  | binaryGenerator dp ht ds =>
      obtain ⟨c₁, hts, hp⟩ := hp.split_append
      obtain ⟨c₂, pt, hus⟩ := hp.split_cons
      simp only [List.length_cons, List.length_append] at hn
      rw [← pt.next_token] at dp
      refine ⟨_, c₁, hr .expression dp hts (by omega), ?_⟩
      rw [eat_bind_eq_ok]
      refine .inr ⟨by simp [pt.next_token, ht], ?_⟩
      rw [eat_bind_eq_ok]
      refine .inl ⟨_, c₂, ht, pt, ?_⟩
      simp only [bind_eq_ok, pure_eq_ok]
      exact ⟨_, c', hr .expression ds hus (by omega), rfl, rfl⟩
  | filter de hne hne' =>
      refine ⟨_, c', hr .expression de hp hn, ?_⟩
      rw [eat_bind_eq_ok]
      refine .inr ⟨hne, ?_⟩
      rw [eat_bind_eq_ok]
      exact .inr ⟨hne', pure_eq_ok.mpr ⟨rfl, rfl⟩⟩

theorem qualifiers_complete : Complete n .qualifiers (qualifiers rules) :=
  ((qualifier_complete hr).separated _).inContext _

omit hr in
theorem segmentType_complete : Complete n .segmentType segmentType := by
  intro m c r c' toks d hp _
  rw [segmentType, bind_eq_ok]
  cases d with
  | @segmentType _ name _ t ht hne =>
      refine ⟨⟨name, t.span⟩, c', expectAtom_eq_ok.mpr ⟨t, ht, rfl, hp⟩, ?_⟩
      rw [eat_bind_eq_ok]
      exact .inr ⟨hne, pure_eq_ok.mpr ⟨rfl, rfl⟩⟩
  | @segmentTypeArg _ name k _ t _ _ ht hu hv =>
      obtain ⟨c₁, pt, hp⟩ := hp.split_cons
      obtain ⟨c₂, pu, pv⟩ := hp.split_cons
      refine ⟨⟨name, t.span⟩, c₁, expectAtom_eq_ok.mpr ⟨t, ht, rfl, pt⟩, ?_⟩
      rw [eat_bind_eq_ok]
      exact .inl ⟨_, c₂, hu, pu, segmentTypeArg_eq_ok.mpr ⟨k, _, c', hv, pv, rfl⟩⟩

omit hr in
/-- No primary begins with a prefix operator, so the two are told apart by their first token. -/
theorem ofToken?_eq_none_of_startsPrimary {t : Token} (h : startsPrimary t = true) :
    UnaryOp.ofToken? t = none := by
  cases t with
  | symbol s => cases s <;> first | rfl | cases h
  | keyword k => cases k <;> first | rfl | cases h
  | _ => rfl

omit hr in
/-- In front of a primary no token is an operator. -/
theorem Derivation.bind_ofToken? {b : Bool} {e : Located Expr} {ts : List (Located Token)}
    {next : Option Token} (d : Derivation b .primary e ts next) {c c' : Cursor}
    (hp : c.Passes ts c') : c.next.bind UnaryOp.ofToken? = none := by
  obtain ⟨t, ht, hs⟩ := Begins.next d.starts hp
  rw [ht]
  exact ofToken?_eq_none_of_startsPrimary hs

theorem segmentValue_complete : Complete n .segmentValue (segmentValue rules) := by
  intro m c r c' toks d hp hn
  rw [segmentValue, peek?_bind]
  cases d with
  | signedSegmentValue ho de =>
      obtain ⟨c₁, pt, hts⟩ := hp.split_cons
      rw [List.length_cons] at hn
      simp only [pt.next_token, Option.bind_some, ho, position_bind, advance_bind pt,
        pt.position_eq, bind_eq_ok, pure_eq_ok]
      exact ⟨_, c', hr .primary de hts (by omega), rfl, rfl⟩
  | segmentValue de =>
      rw [de.bind_ofToken? hp]
      exact hr .primary de hp hn

theorem segmentSize_complete : Complete n .segmentSize (segmentSize rules) := by
  intro m c r c' toks d hp hn
  rw [segmentSize, eat_bind_eq_ok]
  cases d with
  | segmentSizeNone hne =>
      rw [hp.next_eq]
      exact .inr ⟨hne, pure_eq_ok.mpr ⟨rfl, hp.eq_of_nil⟩⟩
  | segmentSize ht de =>
      obtain ⟨c₁, pt, hts⟩ := hp.split_cons
      rw [List.length_cons] at hn
      simp only [bind_eq_ok, pure_eq_ok]
      exact .inl ⟨_, c₁, ht, pt, _, c', hr .primary de hts (by omega), rfl, rfl⟩

omit hr in
theorem segmentTypes_complete : Complete n .segmentTypes segmentTypes := by
  intro m c r c' toks d hp hn
  rw [segmentTypes, eat_bind_eq_ok]
  cases d with
  | segmentTypesNil hne =>
      rw [hp.next_eq]
      exact .inr ⟨hne, pure_eq_ok.mpr ⟨rfl, hp.eq_of_nil⟩⟩
  | segmentTypes ht d =>
      obtain ⟨c₁, pt, hts⟩ := hp.split_cons
      rw [List.length_cons] at hn
      exact .inl ⟨_, c₁, ht, pt, (segmentType_complete (n := n)).separated _ d hts (by omega)⟩

theorem segment_complete : Complete n .segment (segment rules) := by
  intro m c r c' toks d hp hn
  simp only [segment, inContext_apply, bind_eq_ok, pure_eq_ok]
  cases d with
  | segment dv ds dt =>
      obtain ⟨c₁, hts, hp⟩ := hp.split_append
      obtain ⟨c₂, hus, hvs⟩ := hp.split_append
      simp only [List.length_append] at hn
      rw [← hvs.next_eq] at ds
      rw [← hvs.next_eq, ← hus.next_eq] at dv
      exact ⟨_, c₁, segmentValue_complete hr dv hts (by omega), _, c₂,
        segmentSize_complete hr ds hus (by omega), _, c',
        segmentTypes_complete (n := n) dt hvs (by omega),
        rfl, rfl⟩

/-- The part with the timeout, or none where another token than its word is next. -/
theorem after?_complete : Complete n .after (after? rules) := by
  intro m c r c' toks d hp hn
  rw [after?, eat_bind_eq_ok]
  cases d with
  | noAfter hne =>
      rw [hp.next_eq]
      exact .inr ⟨hne, pure_eq_ok.mpr ⟨rfl, hp.eq_of_nil⟩⟩
  | after ht de ha db =>
      obtain ⟨c₁, pt, hp⟩ := hp.split_cons
      obtain ⟨c₂, hts, hp⟩ := hp.split_append
      obtain ⟨c₃, pa, hus⟩ := hp.split_cons
      simp only [List.length_cons, List.length_append] at hn
      rw [← pa.next_token] at de
      refine .inl ⟨_, c₁, ht, pt, ?_⟩
      rw [bind_eq_ok]
      refine ⟨_, c₂, hr .expression de hts (by omega), ?_⟩
      rw [expect_bind_eq_ok]
      refine ⟨_, c₃, ha, pa, ?_⟩
      simp only [bind_eq_ok, pure_eq_ok]
      exact ⟨_, c', exprs_complete hr db hus (by omega), rfl, rfl⟩

/-! ### Primaries -/

section

variable {m : Mode} {c c' : Cursor} {l r : Located Token} {ts us : List (Located Token)}

omit hr in
/-- Brackets with nothing between them. -/
theorem empty_complete {opening closing : Token} {e : Expr} {p : Parser Expr}
    (hl : l.node = opening) (hu : r.node = closing) (hp : c.Passes [l, r] c') :
    (enclosed opening closing (do if ← check closing then return e else p) :
      Parser (Located Expr)) m c =
      .ok (⟨e, l.span.through r.span⟩, c') := by
  obtain ⟨c₁, pl, pr⟩ := hp.split_cons
  rw [enclosed_eq_ok]
  refine ⟨l, c₁, c₁, r, hl, pl, ?_, hu, pr, rfl⟩
  rw [check_bind_eq_ok]
  exact .inl ⟨pr.next_token.trans (congrArg some hu), pure_eq_ok.mpr ⟨rfl, rfl⟩⟩

omit hr in
/-- What stands between two brackets is read, where it is read up to the closing one. -/
theorem enclosed_complete {opening closing : Token} {e : Expr} {p : Parser Expr}
    (hl : l.node = opening) (hu : r.node = closing) (hp : c.Passes (l :: (ts ++ [r])) c')
    (hinside : ∀ c₁ c₂ : Cursor, c₁.Passes ts c₂ → c₂.next = some r.node → p m c₁ = .ok (e, c₂)) :
    enclosed opening closing p m c = .ok (⟨e, l.span.through r.span⟩, c') := by
  obtain ⟨c₁, pl, hp⟩ := hp.split_cons
  obtain ⟨c₂, hts, pr⟩ := hp.split_append
  exact enclosed_eq_ok.mpr ⟨l, c₁, c₂, r, hl, pl, hinside c₁ c₂ hts pr.next_token, hu, pr, rfl⟩

omit hr in
/-- Two parts between brackets, with a token that separates them. -/
theorem enclosed_pair_complete {opening closing : Token} {e : Expr} {p : Parser Expr}
    {o : Located Token} (hl : l.node = opening) (hu : r.node = closing)
    (hp : c.Passes (l :: (ts ++ o :: (us ++ [r]))) c')
    (hinside : ∀ c₁ c₂ c₃ c₄ : Cursor, c₁.Passes ts c₂ → c₂.Passes [o] c₃ → c₃.Passes us c₄ →
      c₄.next = some r.node → p m c₁ = .ok (e, c₄)) :
    enclosed opening closing p m c = .ok (⟨e, l.span.through r.span⟩, c') := by
  have hall : c.Passes (l :: ((ts ++ o :: us) ++ [r])) c' := by simpa using hp
  refine enclosed_complete hl hu hall fun c₁ c₄ hpair hnext => ?_
  obtain ⟨c₂, hts, hpair⟩ := hpair.split_append
  obtain ⟨c₃, po, hus⟩ := hpair.split_cons
  exact hinside c₁ c₂ c₃ c₄ hts po hus hnext

theorem tuple_complete {es : List (Located Expr)} (hl : l.node = .symbol .leftBrace)
    (hu : r.node = .symbol .rightBrace)
    (d : Derivation m.colonSeparates .exprs es ts (some r.node))
    (hp : c.Passes (l :: (ts ++ [r])) c') (hn : ts.length ≤ n) :
    tuple rules m c = .ok (⟨.tuple es, l.span.through r.span⟩, c') := by
  refine enclosed_complete hl hu hp fun c₁ c₂ hts hnext => ?_
  have hne := Begins.next_ne d.starts hts (t := .symbol .rightBrace) rfl
  rw [← hnext] at d
  rw [check_bind_eq_ok]
  refine .inr ⟨hne, ?_⟩
  simp only [bind_eq_ok, pure_eq_ok]
  exact ⟨_, c₂, exprs_complete hr d hts hn, rfl, rfl⟩

theorem list_complete {es : List (Located Expr)} (hl : l.node = .symbol .leftBracket)
    (hu : r.node = .symbol .rightBracket)
    (d : Derivation m.colonSeparates .exprs es ts (some r.node))
    (hp : c.Passes (l :: (ts ++ [r])) c') (hn : ts.length ≤ n) :
    enclosed (.symbol .leftBracket) (.symbol .rightBracket) (listBody rules) m c =
      .ok (⟨.list es none, l.span.through r.span⟩, c') := by
  refine enclosed_complete hl hu hp fun c₁ c₂ hts hclose => ?_
  have hne := Begins.next_ne d.starts hts (t := .symbol .rightBracket) rfl
  rw [← hclose] at d
  obtain ⟨a, as, c₃, rfl, ha, hnext, has⟩ := (hr .expression).separated_split d hts hn
  rw [hclose, hu] at hnext
  rw [listBody, check_bind_eq_ok]
  refine .inr ⟨hne, ?_⟩
  rw [bind_eq_ok]
  refine ⟨a, c₃, ha, ?_⟩
  rw [eat_bind_eq_ok]
  refine .inr ⟨by rcases hnext with h | h <;> simp [h], ?_⟩
  rw [bind_eq_ok]
  refine ⟨as, c₂, has, ?_⟩
  rw [eat_bind_eq_ok]
  exact .inr ⟨by simp [hclose, hu], pure_eq_ok.mpr ⟨rfl, rfl⟩⟩

theorem listTail_complete {es : List (Located Expr)} {tail : Located Expr} {p : Located Token}
    (hl : l.node = .symbol .leftBracket) (hu : r.node = .symbol .rightBracket)
    (d : Derivation m.colonSeparates .exprs es ts (some p.node)) (hpipe : p.node = .symbol .pipe)
    (dt : Derivation m.colonSeparates .expression tail us (some r.node))
    (hp : c.Passes (l :: (ts ++ p :: (us ++ [r]))) c') (hn : ts.length ≤ n) (hn' : us.length ≤ n) :
    enclosed (.symbol .leftBracket) (.symbol .rightBracket) (listBody rules) m c =
      .ok (⟨.list es (some tail), l.span.through r.span⟩, c') := by
  refine enclosed_pair_complete hl hu hp fun c₁ c₂ c₃ c₄ hts pp hus hclose => ?_
  have hne := Begins.next_ne d.starts hts (t := .symbol .rightBracket) rfl
  rw [← pp.next_token] at d
  rw [← hclose] at dt
  obtain ⟨a, as, c₅, rfl, ha, hnext, has⟩ := (hr .expression).separated_split d hts hn
  rw [pp.next_token, hpipe] at hnext
  rw [listBody, check_bind_eq_ok]
  refine .inr ⟨hne, ?_⟩
  rw [bind_eq_ok]
  refine ⟨a, c₅, ha, ?_⟩
  rw [eat_bind_eq_ok]
  refine .inr ⟨by rcases hnext with h | h <;> simp [h], ?_⟩
  rw [bind_eq_ok]
  refine ⟨as, c₂, has, ?_⟩
  rw [eat_bind_eq_ok]
  refine .inl ⟨p, c₃, hpipe, pp, ?_⟩
  simp only [bind_eq_ok, pure_eq_ok]
  exact ⟨tail, c₄, hr .expression dt hus hn', rfl, rfl⟩

theorem listComp_complete {e : Located Expr} {qs : List Qualifier} {p : Located Token}
    (hl : l.node = .symbol .leftBracket) (hu : r.node = .symbol .rightBracket)
    (d : Derivation m.colonSeparates .expression e ts (some p.node))
    (hpipe : p.node = .symbol .pipePipe)
    (dq : Derivation m.colonSeparates .qualifiers qs us (some r.node))
    (hp : c.Passes (l :: (ts ++ p :: (us ++ [r]))) c') (hn : ts.length ≤ n) (hn' : us.length ≤ n) :
    enclosed (.symbol .leftBracket) (.symbol .rightBracket) (listBody rules) m c =
      .ok (⟨.listComp e qs, l.span.through r.span⟩, c') := by
  refine enclosed_pair_complete hl hu hp fun c₁ c₂ c₃ c₄ hts pp hus hclose => ?_
  have hne := Begins.next_ne d.starts hts (t := .symbol .rightBracket) rfl
  rw [← pp.next_token] at d
  rw [← hclose] at dq
  rw [listBody, check_bind_eq_ok]
  refine .inr ⟨hne, ?_⟩
  rw [bind_eq_ok]
  refine ⟨e, c₂, hr .expression d hts hn, ?_⟩
  rw [eat_bind_eq_ok]
  refine .inl ⟨p, c₃, hpipe, pp, ?_⟩
  simp only [bind_eq_ok, pure_eq_ok]
  exact ⟨qs, c₄, qualifiers_complete hr dq hus hn', rfl, rfl⟩

theorem binaryLiteral_complete {ss : List Segment} (hl : l.node = .symbol .lessLess)
    (hu : r.node = .symbol .greaterGreater)
    (d : Derivation m.colonSeparates .segments ss ts (some r.node))
    (hp : c.Passes (l :: (ts ++ [r])) c') (hn : ts.length ≤ n) :
    enclosed (.symbol .lessLess) (.symbol .greaterGreater) (binaryBody rules) m c =
      .ok (⟨.binary ss, l.span.through r.span⟩, c') := by
  refine enclosed_complete hl hu hp fun c₁ c₂ hts hclose => ?_
  have hne := Begins.next_ne d.starts hts (t := .symbol .greaterGreater) rfl
  rw [← hclose] at d
  obtain ⟨a, as, c₃, rfl, ha, hnext, has⟩ := (segment_complete hr).separated_split d hts hn
  rw [hclose, hu] at hnext
  rw [binaryBody, check_bind_eq_ok]
  refine .inr ⟨hne, ?_⟩
  rw [bind_eq_ok]
  refine ⟨a, c₃, ha, ?_⟩
  rw [check_bind_eq_ok]
  refine .inr ⟨by rcases hnext with h | h <;> simp [h], ?_⟩
  simp only [bind_eq_ok, pure_eq_ok]
  exact ⟨as, c₂, has, rfl, rfl⟩

theorem binaryComp_complete {e : Located Expr} {qs : List Qualifier} {p : Located Token}
    (hl : l.node = .symbol .lessLess) (hu : r.node = .symbol .greaterGreater)
    (d : Derivation m.colonSeparates .segment ⟨e, none, []⟩ ts (some p.node))
    (hpipe : p.node = .symbol .pipePipe)
    (dq : Derivation m.colonSeparates .qualifiers qs us (some r.node))
    (hp : c.Passes (l :: (ts ++ p :: (us ++ [r]))) c') (hn : ts.length ≤ n) (hn' : us.length ≤ n) :
    enclosed (.symbol .lessLess) (.symbol .greaterGreater) (binaryBody rules) m c =
      .ok (⟨.binaryComp e qs, l.span.through r.span⟩, c') := by
  refine enclosed_pair_complete hl hu hp fun c₁ c₂ c₃ c₄ hts pp hus hclose => ?_
  have hne := Begins.next_ne d.starts hts (t := .symbol .greaterGreater) rfl
  rw [← pp.next_token] at d
  rw [← hclose] at dq
  rw [binaryBody, check_bind_eq_ok]
  refine .inr ⟨hne, ?_⟩
  rw [bind_eq_ok]
  refine ⟨⟨e, none, []⟩, c₂, segment_complete hr d hts hn, ?_⟩
  rw [check_bind_eq_ok]
  refine .inl ⟨pp.next_token.trans (congrArg some hpipe), ?_⟩
  simp only [Option.isSome_none, ne_eq, not_true_eq_false, decide_false, Bool.or_self,
    Bool.false_eq_true, if_false, advance_bind pp, bind_eq_ok, pure_eq_ok]
  exact ⟨qs, c₄, qualifiers_complete hr dq hus hn', rfl, rfl⟩

theorem block_complete {es : List (Located Expr)} (hl : l.node = .keyword .begin)
    (hu : r.node = .keyword .end_) (d : Derivation m.colonSeparates .exprs es ts (some r.node))
    (hp : c.Passes (l :: (ts ++ [r])) c') (hn : ts.length ≤ n) :
    block rules m c = .ok (⟨.block es, l.span.through r.span⟩, c') := by
  refine enclosed_complete hl hu hp fun c₁ c₂ hts hclose => ?_
  rw [← hclose] at d
  simp only [bind_eq_ok, pure_eq_ok]
  exact ⟨es, c₂, (exprs_complete hr).inContext _ d hts hn, rfl, rfl⟩

theorem caseExpr_complete {e : Located Expr} {cs : List (Located Clause)} {o : Located Token}
    (hl : l.node = .keyword .case) (hu : r.node = .keyword .end_)
    (d : Derivation m.colonSeparates .expression e ts (some o.node)) (ho : o.node = .keyword .of)
    (dc : Derivation m.colonSeparates .caseClauses cs us (some r.node))
    (hp : c.Passes (l :: (ts ++ o :: (us ++ [r]))) c') (hn : ts.length ≤ n) (hn' : us.length ≤ n) :
    caseExpr rules m c = .ok (⟨.caseExpr e cs, l.span.through r.span⟩, c') := by
  refine enclosed_pair_complete hl hu hp fun c₁ c₂ c₃ c₄ hts po hus hclose => ?_
  rw [← po.next_token] at d
  rw [← hclose] at dc
  rw [bind_eq_ok]
  refine ⟨e, c₂, hr .expression d hts hn, ?_⟩
  rw [expect_bind_eq_ok]
  refine ⟨o, c₃, ho, po, ?_⟩
  simp only [bind_eq_ok, pure_eq_ok]
  exact ⟨cs, c₄, (caseClause_complete hr).separated _ dc hus hn', rfl, rfl⟩

theorem ifExpr_complete {cs : List (Located Clause)} (hl : l.node = .keyword .if_)
    (hu : r.node = .keyword .end_)
    (d : Derivation m.colonSeparates .ifClauses cs ts (some r.node))
    (hp : c.Passes (l :: (ts ++ [r])) c') (hn : ts.length ≤ n) :
    ifExpr rules m c = .ok (⟨.ifExpr cs, l.span.through r.span⟩, c') := by
  refine enclosed_complete hl hu hp fun c₁ c₂ hts hclose => ?_
  rw [← hclose] at d
  simp only [bind_eq_ok, pure_eq_ok]
  exact ⟨cs, c₂, (ifClause_complete hr).separated _ d hts hn, rfl, rfl⟩

theorem receiveAfter_complete {a : After} (hl : l.node = .keyword .receive)
    (hu : r.node = .keyword .end_)
    (d : Derivation m.colonSeparates .after (some a) ts (some r.node))
    (hp : c.Passes (l :: (ts ++ [r])) c') (hn : ts.length ≤ n) :
    receiveExpr rules m c = .ok (⟨.receiveExpr [] (some a), l.span.through r.span⟩, c') := by
  refine enclosed_complete hl hu hp fun c₁ c₂ hts hclose => ?_
  have hafter : c₁.next = some (.keyword .after) := by
    cases d with
    | after ht _ _ _ => exact hts.next_token.trans (congrArg some ht)
  rw [← hclose] at d
  rw [bind_eq_ok]
  refine ⟨[], c₁, ?_, ?_⟩
  · rw [receiveClauses, check_bind_eq_ok]
    exact .inl ⟨hafter, pure_eq_ok.mpr ⟨rfl, rfl⟩⟩
  · simp only [bind_eq_ok, pure_eq_ok]
    exact ⟨some a, c₂, after?_complete hr d hts hn, rfl, rfl⟩

theorem receiveExpr_complete {cs : List (Located Clause)} {a : Option After}
    (hl : l.node = .keyword .receive) (hu : r.node = .keyword .end_)
    (d : Derivation m.colonSeparates .caseClauses cs ts (firstOf us (some r.node)))
    (da : Derivation m.colonSeparates .after a us (some r.node))
    (hp : c.Passes (l :: (ts ++ (us ++ [r]))) c') (hn : ts.length ≤ n) (hn' : us.length ≤ n) :
    receiveExpr rules m c = .ok (⟨.receiveExpr cs a, l.span.through r.span⟩, c') := by
  rw [← List.append_assoc] at hp
  refine enclosed_complete hl hu hp fun c₁ c₃ hboth hclose => ?_
  obtain ⟨c₂, hts, hus⟩ := hboth.split_append
  have hne := Begins.next_ne d.starts hts (t := .keyword .after) rfl
  rw [← hclose, ← hus.next_eq] at d
  rw [← hclose] at da
  rw [bind_eq_ok]
  refine ⟨cs, c₂, ?_, ?_⟩
  · rw [receiveClauses, check_bind_eq_ok]
    exact .inr ⟨hne, (caseClause_complete hr).separated _ d hts hn⟩
  · simp only [bind_eq_ok, pure_eq_ok]
    exact ⟨a, c₃, after?_complete hr da hus hn', rfl, rfl⟩

theorem tryExpr_complete {body after : List (Located Expr)} {os cs : List (Located Clause)}
    {vs ws : List (Located Token)} (hl : l.node = .keyword .try_) (hu : r.node = .keyword .end_)
    (d : Derivation m.colonSeparates .exprs body ts
      (firstOf us (firstOf vs (firstOf ws (some r.node)))))
    (dos : Derivation m.colonSeparates (.part .of (.symbol .semicolon) .caseClause) os us
      (firstOf vs (firstOf ws (some r.node))))
    (dcs : Derivation m.colonSeparates (.part .catch_ (.symbol .semicolon) .catchClause) cs vs
      (firstOf ws (some r.node)))
    (da : Derivation m.colonSeparates (.part .after (.symbol .comma) .expression) after ws
      (some r.node))
    (hsome : cs ≠ [] ∨ after ≠ [])
    (hp : c.Passes (l :: (ts ++ (us ++ (vs ++ (ws ++ [r]))))) c')
    (hn : ts.length + us.length + vs.length + ws.length ≤ n) :
    tryExpr rules m c = .ok (⟨.tryExpr body os cs after, l.span.through r.span⟩, c') := by
  have hall : c.Passes (l :: ((ts ++ (us ++ (vs ++ ws))) ++ [r])) c' := by simpa using hp
  refine enclosed_complete hl hu hall fun c₁ c₅ hparts hclose => ?_
  obtain ⟨c₂, hts, hparts⟩ := hparts.split_append
  obtain ⟨c₃, hus, hparts⟩ := hparts.split_append
  obtain ⟨c₄, hvs, hws⟩ := hparts.split_append
  rw [← hclose, ← hws.next_eq, ← hvs.next_eq, ← hus.next_eq] at d
  rw [← hclose, ← hws.next_eq, ← hvs.next_eq] at dos
  rw [← hclose, ← hws.next_eq] at dcs
  rw [← hclose] at da
  simp only [bind_eq_ok]
  refine ⟨body, c₂, exprs_complete hr d hts (by omega), os, c₃,
    (caseClause_complete hr).part _ _ dos hus (by omega), cs, c₄,
    (catchClause_complete hr).part _ _ dcs hvs (by omega), after, c₅,
    (hr .expression).part _ _ da hws (by omega), ?_⟩
  rw [if_neg (by simpa [Classical.or_iff_not_imp_left] using hsome)]
  exact pure_eq_ok.mpr ⟨rfl, rfl⟩

/-- A map behind a hash, on a base or on none. -/
theorem hash_map_complete {base : Option (Located Expr)} {fs : List MapField} {t : Located Token}
    (ht : t.node = .symbol .hash)
    (d : Derivation m.colonSeparates (.braced .mapField) fs ts c'.next)
    (hp : c.Passes (t :: ts) c') (hn : ts.length ≤ n + 2) :
    hash rules base m c = .ok
      (⟨.map base fs, ((base.map Located.span).getD t.span).through (lastSpan t.span ts)⟩, c') := by
  obtain ⟨c₁, pt, hts⟩ := hp.split_cons
  rw [hash, expect_bind_eq_ok]
  refine ⟨t, c₁, ht, pt, ?_⟩
  rw [check_bind_eq_ok]
  refine .inl ⟨d.next_braced hts, ?_⟩
  rw [bind_eq_ok]
  refine ⟨fs, c', ?_, ?_⟩
  · exact ((mapField_complete hr).braced (fun _ h => h) rfl).inContext _ d hts hn
  · rw [previous_bind, hts.previous, pt.previous_token]
    exact pure_eq_ok.mpr ⟨rfl, rfl⟩

/-- A record behind a hash and a name, on a base or on none. -/
theorem hash_record_complete {base : Option (Located Expr)} {name : String} {fs : List RecordField}
    {t k : Located Token} (ht : t.node = .symbol .hash) (hk : k.node = .atom name)
    (d : Derivation m.colonSeparates (.braced .recordField) fs ts c'.next)
    (hp : c.Passes (t :: k :: ts) c') (hn : ts.length ≤ n + 2) :
    hash rules base m c = .ok
      (⟨.record base name fs, ((base.map Located.span).getD t.span).through (lastSpan k.span ts)⟩,
        c') := by
  obtain ⟨c₁, pt, hp⟩ := hp.split_cons
  obtain ⟨c₂, pk, hts⟩ := hp.split_cons
  rw [hash, expect_bind_eq_ok]
  refine ⟨t, c₁, ht, pt, ?_⟩
  rw [check_bind_eq_ok]
  refine .inr ⟨by simp [pk.next_token, hk], ?_⟩
  rw [bind_eq_ok]
  refine ⟨⟨name, k.span⟩, c₂, expectAtom_eq_ok.mpr ⟨k, hk, rfl, pk⟩, ?_⟩
  rw [eat_bind_eq_ok]
  refine .inr ⟨by simp [d.next_braced hts], ?_⟩
  rw [bind_eq_ok]
  refine ⟨fs, c', ?_, ?_⟩
  · exact ((recordField_complete hr).braced (fun _ h => h) rfl).inContext _ d hts hn
  · rw [previous_bind, hts.previous, pk.previous_token]
    exact pure_eq_ok.mpr ⟨rfl, rfl⟩

omit hr in
/-- A field of a record, which is an access on a base and an index on none. -/
theorem hash_field_complete {base : Option (Located Expr)} {name field : String}
    {t k o f : Located Token} (ht : t.node = .symbol .hash) (hk : k.node = .atom name)
    (ho : o.node = .symbol .dot) (hf : f.node = .atom field) (hp : c.Passes [t, k, o, f] c') :
    hash rules base m c = .ok
      (match base with
        | some b => ⟨.recordAccess b name field, b.span.through f.span⟩
        | none => ⟨.recordIndex name field, t.span.through f.span⟩, c') := by
  obtain ⟨c₁, pt, hp⟩ := hp.split_cons
  obtain ⟨c₂, pk, hp⟩ := hp.split_cons
  obtain ⟨c₃, po, pf⟩ := hp.split_cons
  rw [hash, expect_bind_eq_ok]
  refine ⟨t, c₁, ht, pt, ?_⟩
  rw [check_bind_eq_ok]
  refine .inr ⟨by simp [pk.next_token, hk], ?_⟩
  rw [bind_eq_ok]
  refine ⟨⟨name, k.span⟩, c₂, expectAtom_eq_ok.mpr ⟨k, hk, rfl, pk⟩, ?_⟩
  rw [eat_bind_eq_ok]
  refine .inl ⟨o, c₃, ho, po, ?_⟩
  rw [bind_eq_ok]
  refine ⟨⟨field, f.span⟩, c', expectAtom_eq_ok.mpr ⟨f, hf, rfl, pf⟩, ?_⟩
  cases base <;> exact pure_eq_ok.mpr ⟨rfl, rfl⟩

omit hr in
theorem macroName_complete {name : String} {q k : Located Token} (hq : q.node = .symbol .question)
    (hk : k.node = .atom name ∨ k.node = .var name) (hne : c'.next ≠ some (.symbol .leftParen))
    (hp : c.Passes [q, k] c') :
    macroUse rules m c = .ok (⟨.macroUse name none, q.span.through k.span⟩, c') := by
  obtain ⟨c₁, pq, pk⟩ := hp.split_cons
  rw [macroUse, expect_bind_eq_ok]
  refine ⟨q, c₁, hq, pq, ?_⟩
  rw [bind_eq_ok]
  refine ⟨name, c', macroName_eq_ok.mpr ⟨k, hk, pk⟩, ?_⟩
  rw [check_bind_eq_ok]
  refine .inr ⟨hne, ?_⟩
  rw [previous_bind, pk.previous_token]
  exact pure_eq_ok.mpr ⟨rfl, rfl⟩

theorem macroCall_complete {name : String} {args : List (Located Expr)} {q k : Located Token}
    (hq : q.node = .symbol .question) (hk : k.node = .atom name ∨ k.node = .var name)
    (d : Derivation m.colonSeparates .arguments args ts c'.next)
    (hp : c.Passes (q :: k :: ts) c') (hn : ts.length ≤ n) :
    macroUse rules m c =
      .ok (⟨.macroUse name (some args), q.span.through (lastSpan k.span ts)⟩, c') := by
  obtain ⟨c₁, pq, hp⟩ := hp.split_cons
  obtain ⟨c₂, pk, hts⟩ := hp.split_cons
  rw [macroUse, expect_bind_eq_ok]
  refine ⟨q, c₁, hq, pq, ?_⟩
  rw [bind_eq_ok]
  refine ⟨name, c₂, macroName_eq_ok.mpr ⟨k, hk, pk⟩, ?_⟩
  rw [check_bind_eq_ok]
  refine .inl ⟨d.next_arguments hts, ?_⟩
  rw [bind_eq_ok]
  refine ⟨args, c', callArgs_complete hr d hts hn, ?_⟩
  rw [previous_bind, hts.previous, pk.previous_token]
  exact pure_eq_ok.mpr ⟨rfl, rfl⟩

theorem funBody_complete {name : Option String} {cs : List (Located Clause)} {start : Span}
    (hu : r.node = .keyword .end_)
    (d : Derivation m.colonSeparates (.funClauses name) cs ts (some r.node))
    (hp : c.Passes (ts ++ [r]) c') (hn : ts.length ≤ n) :
    funBody rules start name m c = .ok (⟨.funExpr name cs, start.through r.span⟩, c') := by
  obtain ⟨c₁, hts, pr⟩ := hp.split_append
  rw [← pr.next_token] at d
  simp only [funBody, bind_eq_ok, expect_eq_ok, pure_eq_ok]
  exact ⟨cs, c₁, (funClause_complete hr name).separated _ d hts hn, _, c',
    ⟨r, hu, rfl, pr⟩, rfl, rfl⟩

theorem funExpr_complete {cs : List (Located Clause)} (hl : l.node = .keyword .fun_)
    (hu : r.node = .keyword .end_)
    (d : Derivation m.colonSeparates (.funClauses none) cs ts (some r.node))
    (hp : c.Passes (l :: (ts ++ [r])) c') (hn : ts.length ≤ n) :
    funExpr rules m c = .ok (⟨.funExpr none cs, l.span.through r.span⟩, c') := by
  obtain ⟨c₁, pl, hp⟩ := hp.split_cons
  obtain ⟨c₂, hts, -⟩ := hp.split_append
  obtain ⟨t, ht, hs⟩ := Begins.next (f := fun t => t = .symbol .leftParen) d.starts hts
  rw [funExpr, expect_bind_eq_ok]
  refine ⟨l, c₁, hl, pl, ?_⟩
  rw [peekTwo?_bind, ht, of_decide_eq_true hs]
  exact funBody_complete hr hu d hp hn

theorem namedFun_complete {name : String} {cs : List (Located Clause)}
    (hl : l.node = .keyword .fun_) (hu : r.node = .keyword .end_)
    (d : Derivation m.colonSeparates (.funClauses (some name)) cs ts (some r.node))
    (hp : c.Passes (l :: (ts ++ [r])) c') (hn : ts.length ≤ n) :
    funExpr rules m c = .ok (⟨.funExpr (some name) cs, l.span.through r.span⟩, c') := by
  obtain ⟨c₁, pl, hp⟩ := hp.split_cons
  have hkind : funKind? (c₁.next, (c₁.rest.drop 1).head?.map Located.node) =
      some (.clauses (some name)) := by
    cases d with
    | separated dc _ =>
        cases dc with
        | namedFunClause hv dp _ =>
            cases dp with
            | argPatternsNil hl _ => simp [Cursor.next, hp.rest, hv, hl, funKind?]
            | argPatterns hl _ _ => simp [Cursor.next, hp.rest, hv, hl, funKind?]
  rw [funExpr, expect_bind_eq_ok]
  refine ⟨l, c₁, hl, pl, ?_⟩
  rw [peekTwo?_bind, hkind]
  exact funBody_complete hr hu d hp hn

/-- The arity of a reference to a function. -/
theorem funArity_complete {start : Span} {module : Option (Located Expr)}
    {function arity : Located Expr} {u : Located Token} (hu : u.node = .symbol .slash)
    (da : Derivation m.colonSeparates .primary arity ts c'.next) (hp : c.Passes (u :: ts) c')
    (hn : ts.length ≤ n) :
    funArity rules start module function m c =
      .ok (⟨.funRef module function arity, start.through arity.span⟩, c') := by
  obtain ⟨c₁, pu, hts⟩ := hp.split_cons
  rw [funArity, expect_bind_eq_ok]
  refine ⟨u, c₁, hu, pu, ?_⟩
  simp only [bind_eq_ok, pure_eq_ok]
  exact ⟨arity, c', hr .primary da hts hn, rfl, rfl⟩

theorem localReference_complete {name : String} {arity : Located Expr} {f s : Located Token}
    (hl : l.node = .keyword .fun_) (hf : f.node = .atom name) (hs : s.node = .symbol .slash)
    (da : Derivation m.colonSeparates .primary arity ts c'.next)
    (hp : c.Passes (l :: f :: s :: ts) c') (hn : ts.length + 1 ≤ n) :
    funExpr rules m c =
      .ok (⟨.funRef none ⟨.atom name, f.span⟩ arity, l.span.through arity.span⟩, c') := by
  obtain ⟨c₁, pl, hp⟩ := hp.split_cons
  have hkind : funKind? (c₁.next, (c₁.rest.drop 1).head?.map Located.node) =
      some .localReference := by
    simp [Cursor.next, hp.rest, hf, hs, funKind?]
  obtain ⟨c₂, pf, hp⟩ := hp.split_cons
  rw [funExpr, expect_bind_eq_ok]
  refine ⟨l, c₁, hl, pl, ?_⟩
  rw [peekTwo?_bind, hkind]
  simp only [localReference, bind_eq_ok]
  have df : Derivation m.colonSeparates .primary ⟨.atom name, f.span⟩ [f] c₂.next :=
    .simple (by rw [hf]; rfl)
  exact ⟨_, c₂, hr .primary df pf (by simp; omega), funArity_complete hr hs da hp (by omega)⟩

theorem remoteReference_complete {module : Expr} {function arity : Located Expr}
    {k o s : Located Token} (hl : l.node = .keyword .fun_)
    (hk : ∃ name, k.node = .atom name ∨ k.node = .var name) (hm : simple? k.node = some module)
    (ho : o.node = .symbol .colon)
    (df : Derivation m.colonSeparates .primary function ts (some s.node))
    (hs : s.node = .symbol .slash)
    (da : Derivation m.colonSeparates .primary arity us c'.next)
    (hp : c.Passes (l :: k :: o :: (ts ++ s :: us)) c') (hn : ts.length + us.length + 1 ≤ n) :
    funExpr rules m c =
      .ok (⟨.funRef (some ⟨module, k.span⟩) function arity, l.span.through arity.span⟩, c') := by
  obtain ⟨c₁, pl, hp⟩ := hp.split_cons
  have hkind : funKind? (c₁.next, (c₁.rest.drop 1).head?.map Located.node) =
      some .remoteReference := by
    obtain ⟨name, hk | hk⟩ := hk <;> simp [Cursor.next, hp.rest, hk, ho, funKind?]
  obtain ⟨c₂, pk, hp⟩ := hp.split_cons
  obtain ⟨c₃, po, hp⟩ := hp.split_cons
  obtain ⟨c₄, hts, hp⟩ := hp.split_append
  rw [← hp.next_token] at df
  rw [funExpr, expect_bind_eq_ok]
  refine ⟨l, c₁, hl, pl, ?_⟩
  rw [peekTwo?_bind, hkind]
  simp only [remoteReference]
  rw [bind_eq_ok]
  refine ⟨⟨module, k.span⟩, c₂, hr .primary (.simple hm) pk (by simp; omega), ?_⟩
  rw [expect_bind_eq_ok]
  refine ⟨o, c₃, ho, po, ?_⟩
  rw [bind_eq_ok]
  exact ⟨function, c₄, hr .primary df hts (by omega), funArity_complete hr hs da hp (by omega)⟩

omit hr in
theorem strings_complete {texts : List String} (hne : ts ≠ []) (hrun : StringRun ts texts)
    (hnext : ∀ s, c'.next ≠ some (.string s)) (hp : c.Passes ts c') :
    (strings : Parser (Located Expr)) m c = .ok
    (⟨.string (texts.foldr (· ++ ·) ""), extent ts⟩, c') := by
  rw [strings, spanned_eq_ok, bind_eq_ok]
  refine ⟨⟨_, c', stringTexts_eq_ok.mpr ⟨ts, texts, hp, hrun, hnext, rfl⟩, ?_⟩,
    (hp.extent_eq hne).symm⟩
  exact pure_eq_ok.mpr ⟨rfl, rfl⟩

theorem parenthesized_complete {e : Located Expr} (hl : l.node = .symbol .leftParen)
    (hu : r.node = .symbol .rightParen) (d : Derivation false .expression e ts (some r.node))
    (hp : c.Passes (l :: (ts ++ [r])) c') (hn : ts.length ≤ n) :
    parenthesized rules m c = .ok (e, c') := by
  obtain ⟨c₁, pl, hp⟩ := hp.split_cons
  obtain ⟨c₂, hts, pr⟩ := hp.split_append
  rw [← pr.next_token] at d
  rw [parenthesized, expect_bind_eq_ok]
  refine ⟨l, c₁, hl, pl, ?_⟩
  simp only [bind_eq_ok, expect_eq_ok, pure_eq_ok, withColonSeparating_apply]
  exact ⟨e, c₂, hr .expression (m := { m with colonSeparates := false }) d hts hn, _, c',
    ⟨r, hu, rfl, pr⟩, rfl, rfl⟩

omit hr in
/-- What is no simple token is read by the rule of its first token. -/
theorem primary_of_compound {t : Located Token} {k : Token} {us : List (Located Token)}
    (hk : t.node = k) (hs : simple? k = none) (hp : c.Passes (t :: us) c') :
    primary rules m c = compound rules k m c := by
  subst hk
  rw [primary, next?_bind, hp.rest]
  simp [hs]

end

/-- A primary is read by the rule that its derivation ends with. -/
theorem primary_complete : Complete (n + 1) .primary (primary rules) := by
  intro m c r c' toks d hp hn
  cases d with
  | simple hs =>
      rw [primary, next?_bind, hp.rest]
      simp only [List.cons_append, List.head?_cons, hs, advance_bind hp, pure_eq_ok, and_self]
  | @strings _ texts _ _ hne hrun hnext =>
      cases toks with
      | nil => exact absurd rfl hne
      | cons t ts =>
          cases texts with
          | nil => simp [StringRun] at hrun
          | cons s texts =>
              have ht : t.node = .string s := by simp_all [StringRun]
              rw [primary_of_compound ht rfl hp]
              exact strings_complete hne hrun hnext hp
  | parenthesized hl hu d =>
      rw [primary_of_compound hl rfl hp]
      exact parenthesized_complete hr hl hu d hp (by simp at hn; omega)
  | tupleNil hl hu =>
      rw [primary_of_compound hl rfl hp]
      exact empty_complete hl hu hp
  | tuple hl hu d =>
      rw [primary_of_compound hl rfl hp]
      exact tuple_complete hr hl hu d hp (by simp at hn; omega)
  | listNil hl hu =>
      rw [primary_of_compound hl rfl hp]
      exact empty_complete hl hu hp
  | list hl hu d =>
      rw [primary_of_compound hl rfl hp]
      exact list_complete hr hl hu d hp (by simp at hn; omega)
  | listTail hl hu d hpipe dt =>
      rw [primary_of_compound hl rfl hp]
      exact listTail_complete hr hl hu d hpipe dt hp (by simp at hn; omega) (by simp at hn; omega)
  | listComp hl hu d hpipe dq =>
      rw [primary_of_compound hl rfl hp]
      exact listComp_complete hr hl hu d hpipe dq hp (by simp at hn; omega) (by simp at hn; omega)
  | binaryNil hl hu =>
      rw [primary_of_compound hl rfl hp]
      exact empty_complete hl hu hp
  | binaryLiteral hl hu d =>
      rw [primary_of_compound hl rfl hp]
      exact binaryLiteral_complete hr hl hu d hp (by simp at hn; omega)
  | binaryComp hl hu d hpipe dq =>
      rw [primary_of_compound hl rfl hp]
      exact binaryComp_complete hr hl hu d hpipe dq hp (by simp at hn; omega) (by simp at hn; omega)
  | map ht d =>
      rw [primary_of_compound ht rfl hp]
      exact hash_map_complete hr ht d hp (by simp at hn; omega)
  | record ht hk d =>
      rw [primary_of_compound ht rfl hp]
      exact hash_record_complete hr ht hk d hp (by simp at hn; omega)
  | recordIndex ht hk ho hf =>
      rw [primary_of_compound ht rfl hp]
      exact hash_field_complete ht hk ho hf hp
  | block hl hu d =>
      rw [primary_of_compound hl rfl hp]
      exact block_complete hr hl hu d hp (by simp at hn; omega)
  | caseExpr hl hu d ho dc =>
      rw [primary_of_compound hl rfl hp]
      exact caseExpr_complete hr hl hu d ho dc hp (by simp at hn; omega) (by simp at hn; omega)
  | ifExpr hl hu d =>
      rw [primary_of_compound hl rfl hp]
      exact ifExpr_complete hr hl hu d hp (by simp at hn; omega)
  | receiveAfter hl hu d =>
      rw [primary_of_compound hl rfl hp]
      exact receiveAfter_complete hr hl hu d hp (by simp at hn; omega)
  | receiveExpr hl hu d da =>
      rw [primary_of_compound hl rfl hp]
      exact receiveExpr_complete hr hl hu d da hp (by simp at hn; omega) (by simp at hn; omega)
  | tryExpr hl hu d dos dcs da hsome =>
      rw [primary_of_compound hl rfl hp]
      exact tryExpr_complete hr hl hu d dos dcs da hsome hp (by simp at hn; omega)
  | funExpr hl hu d =>
      rw [primary_of_compound hl rfl hp]
      exact funExpr_complete hr hl hu d hp (by simp at hn; omega)
  | namedFun hl hu d =>
      rw [primary_of_compound hl rfl hp]
      exact namedFun_complete hr hl hu d hp (by simp at hn; omega)
  | localReference hl hf hs da =>
      rw [primary_of_compound hl rfl hp]
      exact localReference_complete hr hl hf hs da hp (by simp at hn; omega)
  | remoteReference hl hk hm ho df hs da =>
      rw [primary_of_compound hl rfl hp]
      exact remoteReference_complete hr hl hk hm ho df hs da hp (by simp at hn; omega)
  | macroName hq hk hne =>
      rw [primary_of_compound hq rfl hp]
      exact macroName_complete hq hk hne hp
  | macroCall hq hk d =>
      rw [primary_of_compound hq rfl hp]
      exact macroCall_complete hr hq hk d hp (by simp at hn; omega)

/-! ### Operators -/

/-- A call of a function in a module, behind the colon. -/
theorem remoteCall_complete {m : Mode} {c c' : Cursor} {e f : Located Expr}
    {args : List (Located Expr)} {t : Located Token} {ts us : List (Located Token)}
    (df : Derivation m.colonSeparates .primary f ts (firstOf us c'.next))
    (da : Derivation m.colonSeparates .arguments args us c'.next)
    (hp : c.Passes (t :: (ts ++ us)) c') (hn : ts.length ≤ n) (hn' : us.length ≤ n) :
    remoteCall rules e m c =
      .ok (⟨.call ⟨.remote e f, e.span.through f.span⟩ args,
        (e.span.through f.span).through (lastSpan e.span us)⟩, c') := by
  obtain ⟨c₁, pt, hp⟩ := hp.split_cons
  obtain ⟨c₂, hts, hus⟩ := hp.split_append
  rw [← hus.next_eq] at df
  rw [remoteCall, advance_bind pt, bind_eq_ok]
  refine ⟨f, c₂, hr .primary df hts hn, ?_⟩
  rw [check_bind_eq_ok]
  refine .inl ⟨da.next_arguments hus, ?_⟩
  simp only [bind_eq_ok, previous_bind, pure_eq_ok]
  refine ⟨args, c', callArgs_complete hr da hus hn', ?_, rfl⟩
  rw [hus.previous_of_ne_nil da.arguments_ne_nil e.span]

/-- The loop over what stands behind an operand reads the postfixes that were derived. -/
theorem postfixes_complete {k : Nat} {m : Mode} {c c' : Cursor} {e r : Located Expr}
    {toks : List (Located Token)}
    (d : Derivation m.colonSeparates (.postfixes e) r toks c'.next) (hp : c.Passes toks c')
    (hn : toks.length ≤ n) (hk : toks.length ≤ k) : postfixes rules k e m c = .ok (r, c') := by
  induction k generalizing c e toks with
  | zero =>
      obtain rfl := List.length_eq_zero_iff.mp (Nat.le_zero.mp hk)
      exact pure_eq_ok.mpr ⟨d.postfixes_nil, hp.eq_of_nil⟩
  | succ k ih =>
      rw [postfixes, peek?_bind]
      cases d with
      | postfixesNil hstop =>
          obtain ⟨hl, hh, hc⟩ := hstop
          obtain rfl := hp.eq_of_nil
          rcases hx : c'.next with _ | t
          · exact pure_eq_ok.mpr ⟨rfl, rfl⟩
          · rw [hx] at hl hh hc
            cases t
            case symbol s =>
              cases s
              case leftParen => exact absurd rfl hl
              case hash => exact absurd rfl hh
              case colon =>
                simp only [colonSeparates_bind, hc rfl, if_true, pure_eq_ok, and_self]
              all_goals exact pure_eq_ok.mpr ⟨rfl, rfl⟩
            all_goals exact pure_eq_ok.mpr ⟨rfl, rfl⟩
      | call da d =>
          obtain ⟨c₁, hts, hus⟩ := hp.split_append
          have hpos := List.length_pos_iff.mpr da.arguments_ne_nil
          rw [List.length_append] at hn hk
          rw [← hus.next_eq] at da
          simp only [da.next_arguments hts, bind_eq_ok, previous_bind]
          refine ⟨_, c₁, callArgs_complete hr da hts (by omega), ?_⟩
          rw [hts.previous_of_ne_nil da.arguments_ne_nil e.span]
          exact ih d hus (by omega) (by omega)
      | remoteCall hb ht df da d =>
          have hnext : c.next = some (.symbol .colon) := hp.next_token.trans (congrArg some ht)
          rw [← List.append_assoc, ← List.cons_append] at hp
          obtain ⟨c₁, hts, hvs⟩ := hp.split_append
          simp only [List.length_cons, List.length_append] at hn hk
          rw [← hvs.next_eq] at df da
          simp only [hnext, colonSeparates_bind, hb, Bool.false_eq_true, if_false, bind_eq_ok]
          exact ⟨_, c₁, remoteCall_complete hr df da hts (by omega) (by omega),
            ih d hvs (by omega) (by omega)⟩
      | mapUpdate ht df d =>
          have hnext : c.next = some (.symbol .hash) := hp.next_token.trans (congrArg some ht)
          rw [← List.cons_append] at hp
          obtain ⟨c₁, hts, hus⟩ := hp.split_append
          simp only [List.length_cons, List.length_append] at hn hk
          rw [← hus.next_eq] at df
          simp only [hnext, bind_eq_ok]
          exact ⟨_, c₁, hash_map_complete hr ht df hts (by omega),
            ih d hus (by omega) (by omega)⟩
      | recordUpdate ht hk' df d =>
          have hnext : c.next = some (.symbol .hash) := hp.next_token.trans (congrArg some ht)
          rw [← List.cons_append, ← List.cons_append] at hp
          obtain ⟨c₁, hts, hus⟩ := hp.split_append
          simp only [List.length_cons, List.length_append] at hn hk
          rw [← hus.next_eq] at df
          simp only [hnext, bind_eq_ok]
          exact ⟨_, c₁, hash_record_complete hr ht hk' df hts (by omega),
            ih d hus (by omega) (by omega)⟩
      | @recordAccess _ _ _ _ _ us _ t n o f ht hk' ho hf d =>
          have hnext : c.next = some (.symbol .hash) := hp.next_token.trans (congrArg some ht)
          have hp' : c.Passes ([t, n, o, f] ++ us) c' := hp
          obtain ⟨c₁, hts, hus⟩ := hp'.split_append
          simp only [List.length_cons] at hn hk
          simp only [hnext, bind_eq_ok]
          exact ⟨_, c₁, hash_field_complete ht hk' ho hf hts,
            ih d hus (by omega) (by omega)⟩

theorem unary_complete : Complete (n + 1) .unary (unary rules) := by
  intro m c r c' toks d hp hn
  rw [unary, peek?_bind]
  cases d with
  | unaryOp ho de =>
      obtain ⟨c₁, pt, hts⟩ := hp.split_cons
      rw [List.length_cons] at hn
      simp only [pt.next_token, Option.bind_some, ho, position_bind, advance_bind pt,
        pt.position_eq, bind_eq_ok, pure_eq_ok]
      exact ⟨_, c', hr .unary de hts (by omega), rfl, rfl⟩
  | applied de d =>
      obtain ⟨c₁, hts, hus⟩ := hp.split_append
      have hpos := List.length_pos_iff.mpr (Begins.ne_nil de.starts)
      rw [List.length_append] at hn
      rw [de.bind_ofToken? hts]
      rw [← hus.next_eq] at de
      simp only [bind_eq_ok]
      refine ⟨_, c₁, primary_complete hr de hts (by omega), ?_⟩
      rw [bounded_apply]
      exact postfixes_complete hr d hus (by omega) (by rw [hus.length_eq]; omega)

/-- The loop over operators reads the operations that were derived. -/
theorem operations_complete {minimum k : Nat} {m : Mode} {c c' : Cursor} {lhs r : Located Expr}
    {comparison : Bool} {toks : List (Located Token)}
    (d : Derivation m.colonSeparates (.operations minimum lhs comparison) r toks c'.next)
    (hp : c.Passes toks c') (hn : toks.length ≤ n) (hk : toks.length ≤ k) :
    operations rules minimum k lhs comparison m c = .ok (r, c') := by
  induction k generalizing c lhs comparison toks with
  | zero =>
      obtain rfl := List.length_eq_zero_iff.mp (Nat.le_zero.mp hk)
      cases d
      exact pure_eq_ok.mpr ⟨rfl, hp.eq_of_nil⟩
  | succ k ih =>
      rw [operations, next?_bind]
      cases d with
      | operationsNil hstop =>
          obtain rfl := hp.eq_of_nil
          rcases hx : c'.rest.head? with _ | ⟨t, span⟩
          · exact pure_eq_ok.mpr ⟨rfl, rfl⟩
          · obtain ⟨c₁, pt⟩ := Cursor.passes_head hx
            rcases ho : connective? t with _ | op
            · simp only [ho, pure_eq_ok, and_self]
            · have hlt := hstop op (by rw [pt.next_token]; exact ho)
              simp only [ho, hlt, if_true, pure_eq_ok, and_self]
      | operationsCons ho hle hcmp dr d =>
          obtain ⟨c₁, pt, hp⟩ := hp.split_cons
          obtain ⟨c₂, hts, hus⟩ := hp.split_append
          simp only [List.length_cons, List.length_append] at hn hk
          rw [← hus.next_eq] at dr
          simp only [pt.rest, List.cons_append, List.head?_cons, ho, Nat.not_lt.mpr hle,
            if_false, hcmp, Bool.false_eq_true, advance_bind pt, bind_eq_ok]
          exact ⟨_, c₂, hr _ dr hts (by omega), ih d hus (by omega) (by omega)⟩

theorem binary_complete (minimum : Nat) :
    Complete (n + 1) (.binary minimum) (binary rules minimum) := by
  intro m c r c' toks d hp hn
  rw [binary, bind_eq_ok]
  cases d with
  | binary dl d =>
      obtain ⟨c₁, hts, hus⟩ := hp.split_append
      have hpos := List.length_pos_iff.mpr (Begins.ne_nil dl.starts)
      rw [List.length_append] at hn
      rw [← hus.next_eq] at dl
      refine ⟨_, c₁, unary_complete hr dl hts (by omega), ?_⟩
      rw [bounded_apply]
      exact operations_complete hr d hus (by omega) (by rw [hus.length_eq]; omega)

theorem expression_complete : Complete (n + 1) .expression (expression rules) := by
  intro m c r c' toks d hp hn
  rw [expression, check_bind_eq_ok]
  cases d with
  | catchExpr ht d =>
      obtain ⟨c₁, pt, hts⟩ := hp.split_cons
      rw [List.length_cons] at hn
      refine .inl ⟨hp.next_token.trans (congrArg some ht), ?_⟩
      rw [expect_bind_eq_ok]
      refine ⟨_, c₁, ht, pt, ?_⟩
      simp only [bind_eq_ok, pure_eq_ok]
      exact ⟨_, c', hr .expression d hts (by omega), rfl, rfl⟩
  | operators d =>
      exact .inr ⟨Begins.next_ne d.starts hp rfl, binary_complete hr 0 d hp hn⟩

/-- Every rule of the grammar is read one call deeper than what it calls. -/
theorem step_complete (nt : Nonterminal) : Complete (n + 1) (.rule nt) (step rules nt) := by
  cases nt with
  | expression => exact expression_complete hr
  | binary minimum => exact binary_complete hr minimum
  | unary => exact unary_complete hr
  | primary => exact primary_complete hr

end

/-- The rules with a bound on their depth read every derivation of at most so many tokens. -/
theorem within_complete (n : Nat) (nt : Nonterminal) : Complete n (.rule nt) (within n nt) := by
  induction n generalizing nt with
  | zero =>
      intro m c r c' toks d hp hn
      obtain rfl := List.length_eq_zero_iff.mp (Nat.le_zero.mp hn)
      have hs := d.starts
      cases nt <;> exact hs.elim
  | succ n ih => exact step_complete ih nt

end ErlangFragment.Grammar
