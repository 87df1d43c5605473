import ErlangFragment.Proofs.Grammar.Cutting

/-! Nesting. In tokens that are accepted every closer belongs to the latest opener that is still
open, and nothing stays open in front of the terminator. -/

namespace ErlangFragment.Grammar

/-! ### Openers and closers -/

/-- Behind `fun`, these tokens begin clauses and not a reference. -/
def beginsClauses : List Token → Bool
  | .symbol .leftParen :: _ | .var _ :: .symbol .leftParen :: _ => true
  | _ => false

/-- The closer that a token waits for with these tokens behind it, if it opens anything. -/
def closer? (behind : List Token) : Token → Option Token
  | .symbol .leftParen => some (.symbol .rightParen)
  | .symbol .leftBracket => some (.symbol .rightBracket)
  | .symbol .leftBrace => some (.symbol .rightBrace)
  | .symbol .lessLess => some (.symbol .greaterGreater)
  | .keyword .begin | .keyword .case | .keyword .if_ | .keyword .receive | .keyword .try_ =>
    some (.keyword .end_)
  | .keyword .fun_ => if beginsClauses behind then some (.keyword .end_) else none
  | _ => none

def closers : List Token :=
  [.symbol .rightParen, .symbol .rightBracket, .symbol .rightBrace, .symbol .greaterGreater,
    .keyword .end_]

/-- What is waited for behind a closer, if it is the next one that is waited for. -/
def close? (t : Token) : List Token → Option (List Token)
  | [] => none
  | closer :: stack => if t = closer then some stack else none

/-- The closers still waited for behind the tokens, the next one first, where the first argument is
waited for in front of them. It is `none` if a token closes what is not the latest to be open. -/
def awaited (stack : List Token) : List (Located Token) → Option (List Token)
  | [] => some stack
  | t :: ts =>
    match closer? (ts.map Located.node) t.node with
    | some closer => awaited (closer :: stack) ts
    | none =>
        if t.node ∈ closers then (close? t.node stack).bind fun stack => awaited stack ts
        else awaited stack ts

/-- The last token is the only terminator, and in front of it everything that is opened is closed
again, the latest first. -/
def WellBracketed (ts : List (Located Token)) : Prop :=
  ∃ us t, ts = us ++ [t] ∧ t.node = .terminator ∧ (∀ u ∈ us, u.node ≠ .terminator) ∧
    awaited [] us = some []

/-- Tokens that can open or close something. -/
def marks : List Token :=
  closers ++ [.symbol .leftParen, .symbol .leftBracket, .symbol .leftBrace, .symbol .lessLess,
    .keyword .begin, .keyword .case, .keyword .if_, .keyword .receive, .keyword .try_,
    .keyword .fun_]

/-- Whatever is waited for in front of the tokens is waited for behind them. -/
def Nested (ts : List (Located Token)) : Prop :=
  ∀ stack us, awaited stack (ts ++ us) = awaited stack us

/-- The separators and the leading words of the phrase open and close nothing. -/
def Phrase.IsUnmarked : Phrase → Prop
  | more s p | separated s p => s ∉ marks ∧ p.IsUnmarked
  | part w s p => .keyword w ∉ marks ∧ s ∉ marks ∧ p.IsUnmarked
  | braced p => p.IsUnmarked
  | _ => True

section

variable {t l r : Located Token} {ts us : List (Located Token)} {k : Token} {stack : List Token}

theorem closer?_of_unmarked (h : k ∉ marks) (behind : List Token) : closer? behind k = none := by
  unfold closer?
  split <;> first | rfl | exact absurd (by decide) h

theorem awaited_of_unmarked (h : t.node ∉ marks) : awaited stack (t :: ts) = awaited stack ts := by
  have hclosers : t.node ∉ closers := fun hmem => h (List.mem_append_left _ hmem)
  rw [awaited, closer?_of_unmarked h]
  simp [hclosers]

theorem awaited_of_closer (h : t.node ∈ closers) :
    awaited (t.node :: stack) (t :: ts) = awaited stack ts := by
  have hopens : closer? (ts.map Located.node) t.node = none := by
    have hall : ∀ k ∈ closers, closer? (ts.map Located.node) k = none := by simp [closers, closer?]
    exact hall _ h
  rw [awaited, hopens]
  simp [h, close?]

theorem nested_nil : Nested [] := fun _ _ => rfl

theorem Nested.append (h : Nested ts) (h' : Nested us) : Nested (ts ++ us) := by
  intro stack vs
  rw [List.append_assoc, h, h']

theorem Nested.cons (h : Nested ts) (ht : t.node ∉ marks) : Nested (t :: ts) := by
  intro stack vs
  rw [List.cons_append, awaited_of_unmarked ht, h]

theorem nested_of_unmarked (h : ∀ t ∈ ts, t.node ∉ marks) : Nested ts := by
  induction ts with
  | nil => exact nested_nil
  | cons t ts ih =>
      obtain ⟨ht, hts⟩ := List.forall_mem_cons.mp h
      exact (ih hts).cons ht

/-- What stands between an opener and its closer is nested, and so is the whole. -/
theorem Nested.enclosed (h : Nested ts)
    (hl : ∀ us, closer? ((ts ++ us).map Located.node) l.node = some r.node)
    (hr : r.node ∈ closers) : Nested (l :: (ts ++ [r])) := by
  intro stack us
  rw [List.cons_append, List.append_assoc, List.singleton_append, awaited, hl]
  exact (h _ _).trans (awaited_of_closer hr)

theorem Nested.between {o : Token} (h : Nested ts) (hl : l.node = o) (hr : r.node = k)
    (hpair : ∀ behind, closer? behind o = some k) (hk : k ∈ closers) :
    Nested (l :: (ts ++ [r])) := by
  subst hl hr
  exact h.enclosed (fun us => hpair _) hk

theorem Nested.between_two {o : Token} (h : Nested ts) (ht : t.node ∉ marks) (h' : Nested us)
    (hl : l.node = o) (hr : r.node = k) (hpair : ∀ behind, closer? behind o = some k)
    (hk : k ∈ closers) :
    Nested (l :: (ts ++ t :: (us ++ [r]))) := by
  have hall := (h.append (h'.cons ht)).between hl hr hpair hk
  rwa [List.append_assoc, List.cons_append] at hall

/-- A reference opens nothing. -/
theorem Nested.reference (h : Nested ts) (hl : l.node = .keyword .fun_)
    (hts : ∀ us, beginsClauses ((ts ++ us).map Located.node) = false) : Nested (l :: ts) := by
  intro stack us
  rw [List.cons_append, awaited, hl, closer?, hts, if_neg Bool.false_ne_true]
  exact h stack us

theorem not_mem_marks_of_name {name : String} (h : k = .atom name ∨ k = .var name) : k ∉ marks := by
  rcases h with rfl | rfl <;> simp [marks, closers]

theorem nested_of_stringRun {texts : List String} (h : StringRun ts texts) : Nested ts := by
  refine nested_of_unmarked fun t ht => ?_
  obtain ⟨text, htext⟩ := h.isString ht
  simp [htext, marks, closers]

end

/-! ### Phrases -/

theorem Derivation.beginsClauses {b : Bool} {name : Option String} {cs : List (Located Clause)}
    {ts : List (Located Token)} {next : Option Token}
    (d : Derivation b (.funClauses name) cs ts next)
    (us : List (Located Token)) : beginsClauses ((ts ++ us).map Located.node) = true := by
  cases d with
  | separated dc _ =>
      cases dc with
      | funClause dps _ => cases dps <;> simp_all [Grammar.beginsClauses]
      | namedFunClause ht dps _ => cases dps <;> simp_all [Grammar.beginsClauses]

theorem Derivation.nested {b : Bool} {ph : Phrase} {r : ph.Result} {ts : List (Located Token)}
    {next : Option Token} (d : Derivation b ph r ts next) (h : ph.IsUnmarked) : Nested ts := by
  induction d
  -- Phrases without tokens of their own
  case moreNil | partNone | operationsNil | postfixesNil | segmentSizeNone | segmentTypesNil |
    noAfter =>
    exact nested_nil
  case operators ih | segmentValue ih | reason ih | filter ih => exact ih trivial
  case separated ih ih' => exact (ih h.2).append (ih' h)
  case binary ih ih' | applied ih ih' | call ih ih' | caseClause ih ih' | catchClause ih ih' |
    funClause ih ih' =>
    exact (ih trivial).append (ih' trivial)
  case segment ih ih' ih'' => exact (ih trivial).append ((ih' trivial).append (ih'' trivial))
  -- Tokens that open and close nothing
  case moreCons ht _ _ ih ih' => exact ((ih h.2).append (ih' h)).cons (ht ▸ h.1)
  case partSome ht _ ih => exact (ih h.2).cons (ht ▸ h.1)
  case operationsCons hop _ _ _ _ ih ih' =>
    exact ((ih trivial).append (ih' trivial)).cons (not_mem_of_some hop (by decide))
  case unaryOp hop _ ih | signedSegmentValue hop _ ih =>
    exact (ih trivial).cons (not_mem_of_some hop (by decide))
  case simple hsimple => exact nested_nil.cons (not_mem_of_some hsimple (by decide))
  case strings _ hrun _ => exact nested_of_stringRun hrun
  case catchExpr ht _ ih | segmentSize ht _ ih | map ht _ ih =>
    exact (ih trivial).cons (ht ▸ by decide)
  case unguarded ht _ ih | segmentTypes ht _ ih =>
    exact (ih ⟨by decide, trivial⟩).cons (ht ▸ by decide)
  case segmentType hname _ => exact nested_nil.cons (not_mem_marks_of_name (.inl hname))
  case segmentTypeArg hname hcolon harg =>
    refine ((nested_nil.cons ?_).cons (hcolon ▸ by decide)).cons
      (not_mem_marks_of_name (.inl hname))
    simp [harg, marks, closers]
  case macroName hq hname _ =>
    exact (nested_nil.cons (not_mem_marks_of_name hname)).cons
      (hq ▸ by decide)
  case macroCall hq hname _ ih =>
    exact ((ih trivial).cons (not_mem_marks_of_name hname)).cons (hq ▸ by decide)
  case record hhash hname _ ih =>
    exact ((ih trivial).cons (not_mem_marks_of_name (.inl hname))).cons (hhash ▸ by decide)
  case recordField hname hequal _ ih =>
    exact ((ih trivial).cons (hequal ▸ by decide)).cons (not_mem_marks_of_name hname)
  case recordIndex hhash hname hdot hfield =>
    refine (Nested.cons (Nested.cons ?_ ?_) (not_mem_marks_of_name (.inl hname))).cons
      (hhash ▸ by decide)
    · exact nested_nil.cons (not_mem_marks_of_name (.inl hfield))
    · exact hdot ▸ by decide
  case remoteCall _ hcolon _ _ _ ih ih' ih'' =>
    exact ((ih trivial).append ((ih' trivial).append (ih'' trivial))).cons (hcolon ▸ by decide)
  case mapUpdate hhash _ _ ih ih' =>
    exact ((ih trivial).append (ih' trivial)).cons (hhash ▸ by decide)
  case recordUpdate hhash hname _ _ ih ih' =>
    refine Nested.cons (((ih trivial).append (ih' trivial)).cons
      (not_mem_marks_of_name (.inl hname))) ?_
    exact hhash ▸ by decide
  case recordAccess hhash hname hdot hfield _ ih =>
    refine (Nested.cons (Nested.cons ?_ ?_) (not_mem_marks_of_name (.inl hname))).cons
      (hhash ▸ by decide)
    · exact (ih trivial).cons (not_mem_marks_of_name (.inl hfield))
    · exact hdot ▸ by decide
  case namedFunClause hname _ _ ih ih' =>
    exact ((ih trivial).append (ih' trivial)).cons (not_mem_marks_of_name (.inr hname))
  case guarded hwhen _ harrow _ ih ih' =>
    refine Nested.cons ((ih ⟨by decide, by decide, trivial⟩).append
      ((ih' ⟨by decide, trivial⟩).cons ?_)) ?_
    · exact harrow ▸ by decide
    · exact hwhen ▸ by decide
  case ifClause _ harrow _ ih ih' =>
    exact (ih ⟨by decide, by decide, trivial⟩).append
      ((ih' ⟨by decide, trivial⟩).cons (harrow ▸ by decide))
  case after hafter _ harrow _ ih ih' =>
    refine Nested.cons ((ih trivial).append
      ((ih' ⟨by decide, trivial⟩).cons (harrow ▸ by decide))) ?_
    exact hafter ▸ by decide
  case classReason _ ht _ _ ih ih' | assocField _ ht _ ih ih' | exactField _ ht _ ih ih' |
    generator _ ht _ ih ih' |
      binaryGenerator _ ht _ ih ih' =>
    exact (ih trivial).append ((ih' trivial).cons (ht ▸ by decide))
  case classReasonStack _ ht _ hu _ ih ih' ih'' =>
    refine (ih trivial).append (((ih' trivial).append ((ih'' trivial).cons ?_)).cons ?_)
    · exact hu ▸ by decide
    · exact ht ▸ by decide
  -- Pairs of brackets
  case bracedNil hl hr | argumentsNil hl hr | argPatternsNil hl hr | tupleNil hl hr |
    listNil hl hr |
      binaryNil hl hr =>
    exact nested_nil.between hl hr (fun _ => rfl) (by decide)
  case braced hl hr _ ih => exact (ih ⟨by decide, h⟩).between hl hr (fun _ => rfl) (by decide)
  case parenthesized hl hr _ ih => exact (ih trivial).between hl hr (fun _ => rfl) (by decide)
  case arguments hl hr _ ih | argPatterns hl hr _ ih | tuple hl hr _ ih | list hl hr _ ih |
      binaryLiteral hl hr _ ih =>
    exact (ih ⟨by decide, trivial⟩).between hl hr (fun _ => rfl) (by decide)
  case block hl hr _ ih => exact (ih ⟨by decide, trivial⟩).between hl hr (fun _ => rfl) (by decide)
  case ifExpr hl hr _ ih => exact (ih ⟨by decide, trivial⟩).between hl hr (fun _ => rfl) (by decide)
  case receiveAfter hl hr _ ih => exact (ih trivial).between hl hr (fun _ => rfl) (by decide)
  case listTail hl hr _ hbar _ ih ih' =>
    exact (ih ⟨by decide, trivial⟩).between_two (hbar ▸ by decide) (ih' trivial) hl hr
      (fun _ => rfl) (by decide)
  case listComp hl hr _ ht _ ih ih' | binaryComp hl hr _ ht _ ih ih' |
    caseExpr hl hr _ ht _ ih ih' =>
    exact (ih trivial).between_two (ht ▸ by decide) (ih' ⟨by decide, trivial⟩) hl hr (fun _ => rfl)
      (by decide)
  case receiveExpr hl hr _ _ ih ih' =>
    have hall := ((ih ⟨by decide, trivial⟩).append (ih' trivial)).between hl hr (fun _ => rfl)
        (by decide)
    rwa [List.append_assoc] at hall
  case tryExpr hl hr _ _ _ _ _ ihbody ihof ihcatch ihafter =>
    have hinner :=
      (ihbody ⟨by decide, trivial⟩).append ((ihof ⟨by decide, by decide, trivial⟩).append
      ((ihcatch ⟨by decide, by decide, trivial⟩).append (ihafter ⟨by decide, by decide, trivial⟩)))
    have hall := hinner.between hl hr (fun _ => rfl) (by decide)
    simpa only [List.append_assoc] using hall
  -- `fun` opens clauses, but no reference
  case funExpr hl hr d ih | namedFun hl hr d ih =>
    refine (ih ⟨by decide, trivial⟩).enclosed (fun us => ?_) (hr ▸ by decide)
    rw [hl, hr, closer?, d.beginsClauses, if_pos rfl]
  case localReference hfun hname hslash _ ih =>
    refine Nested.reference (((ih trivial).cons ?_).cons
      (not_mem_marks_of_name (.inl hname))) hfun ?_
    · exact hslash ▸ by decide
    · simp [hname, Grammar.beginsClauses]
  case remoteReference hfun hname _ hcolon _ hslash _ ih ih' =>
    obtain ⟨name, hname⟩ := hname
    refine Nested.reference ((((ih trivial).append ((ih' trivial).cons ?_)).cons ?_).cons
      (not_mem_marks_of_name hname)) hfun ?_
    · exact hslash ▸ by decide
    · exact hcolon ▸ by decide
    · rcases hname with hname | hname <;> simp [hname, hcolon, Grammar.beginsClauses]

/-! ### Forms -/

theorem FunctionClause.nested {name : Located String} {c : Located Clause}
    {ts : List (Located Token)} {next : Option Token} (d : FunctionClause name c ts next) :
    Nested ts := by
  obtain ⟨hname, dps, dc⟩ := d
  exact ((dps.nested trivial).append (dc.nested trivial)).cons (not_mem_marks_of_name (.inl hname))

theorem FurtherClauses.nested {first : String × Nat} {cs : List (Located Clause)}
    {ts : List (Located Token)} (d : FurtherClauses first cs ts) : Nested ts := by
  induction d with
  | nil => exact nested_nil
  | cons hs dc _ _ ih => exact (dc.nested.append ih).cons (hs ▸ by decide)

theorem wellBracketed_append {us : List (Located Token)} {t : Located Token}
    (ht : t.node = .terminator) (hbalanced : Balanced us) (hnested : Nested us) :
    WellBracketed (us ++ [t]) := by
  refine ⟨us, t, rfl, ht, hbalanced.noTerminator, ?_⟩
  have hall := hnested [] []
  rwa [List.append_nil] at hall

/-- Accepted expressions and functions are well bracketed up to their terminator, and nothing stands
behind it. -/
theorem wellBracketed_of_accepted (ts : List (Located Token)) :
    (∀ e, parseExpressionSequence ts = .ok e → WellBracketed ts) ∧
      ∀ name arity clauses span, form.run ts = .ok ⟨.function name arity clauses, span⟩ →
      WellBracketed ts := by
  constructor
  · intro e h
    obtain ⟨body, ⟨us, t, rfl, ht, d⟩, -⟩ := parseExpressionSequence_iff.mp h
    exact wellBracketed_append ht (d.balanced ⟨⟨by simp, rfl⟩, trivial⟩)
      (d.nested ⟨by decide, trivial⟩)
  · intro name arity clauses span h
    obtain ⟨us, t, rfl, ht, d⟩ := form_iff.mp h
    refine wellBracketed_append ht (d.balanced rfl) ?_
    cases d with
    | function dfirst dmore => exact dfirst.nested.append dmore.nested

/-- A `fun` with a clause, and a function that gives a reference. -/
theorem wellBracketed_of_accepted_fun :
    WellBracketed [⟨.keyword .fun_, ⟨0, 3, 1⟩⟩, ⟨.symbol .leftParen, ⟨3, 4, 1⟩⟩,
        ⟨.var "X", ⟨4, 5, 1⟩⟩, ⟨.symbol .rightParen, ⟨5, 6, 1⟩⟩, ⟨.symbol .arrow, ⟨7, 9, 1⟩⟩,
        ⟨.symbol .leftBracket, ⟨10, 11, 1⟩⟩, ⟨.var "X", ⟨11, 12, 1⟩⟩,
        ⟨.symbol .rightBracket, ⟨12, 13, 1⟩⟩, ⟨.keyword .end_, ⟨14, 17, 1⟩⟩,
        ⟨.terminator, ⟨17, 18, 1⟩⟩] ∧
      WellBracketed [⟨.atom "f", ⟨0, 1, 1⟩⟩, ⟨.symbol .leftParen, ⟨1, 2, 1⟩⟩,
        ⟨.symbol .rightParen, ⟨2, 3, 1⟩⟩, ⟨.symbol .arrow, ⟨4, 6, 1⟩⟩, ⟨.keyword .fun_, ⟨7, 10, 1⟩⟩,
        ⟨.atom "f", ⟨11, 12, 1⟩⟩, ⟨.symbol .slash, ⟨12, 13, 1⟩⟩, ⟨.integer (.small 0), ⟨13, 14, 1⟩⟩,
        ⟨.terminator, ⟨14, 15, 1⟩⟩] := by
  constructor
  · exact (wellBracketed_of_accepted _).1 _ (by cbv)
  · exact (wellBracketed_of_accepted _).2 _ _ _ _ (by cbv)

end ErlangFragment.Grammar
