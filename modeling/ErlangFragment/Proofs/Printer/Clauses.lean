import ErlangFragment.Proofs.Printer.Nodes

/-! Nodes with clauses read as themselves if their parts do. -/

namespace ErlangFragment

open Grammar Printer Layout

namespace Printer

/-! ### Clauses -/

/-- Guards and body of a clause. -/
def clauseTail (guards body : List (List Token)) : List Token :=
  match guards with
  | [] => .symbol .arrow :: between (.symbol .comma) body
  | _ =>
    .keyword .when :: (between (.symbol .semicolon) guards ++
      .symbol .arrow :: between (.symbol .comma) body)

/-- The layout of a clause. -/
def clause (head : Head) (level : Nat) (c : Clause) : Layout :=
  clauseLayout head level (exprs level c.patterns) (guards level c.guards)
    (exprs (level + 1) c.body)

/-- The layouts of clauses are those of each clause. -/
theorem clauses_eq_map (head : Head) (level : Nat) (cs : List (Located Clause)) :
    clauses head level cs = cs.map fun c => clause head level c.node := by
  induction cs with
  | nil => rfl
  | cons c cs ih =>
      obtain ⟨⟨ps, gs, body⟩, s⟩ := c
      rw [List.map_cons, ← ih]
      rfl

/-- The parts of a clause read as themselves. The patterns of a catch clause stand between
colons. -/
structure ClauseReads (b : Bool) (level : Nat) (c : Clause) : Prop where
  patterns : ReadsEach b level c.patterns
  separated : exprsExpose c.patterns = false → ReadsEach true level c.patterns
  guards : Elements .exprs b (ClosesList b) (erase c.guards) ((guards level c.guards).map tokens)
  body : ReadsEach b (level + 1) c.body
  nonempty : c.body ≠ []

variable {b : Bool} {level : Nat} {c : Clause} {cs : List (Located Clause)} {next : Option Token}

theorem tokens_clause_args (c : Clause) :
    (clause .args level c).tokens = (parens (commas (exprs level c.patterns))).tokens ++
      clauseTail ((guards level c.guards).map tokens) ((exprs (level + 1) c.body).map tokens) := by
  rcases hg : guards level c.guards with _ | ⟨g, gs⟩ <;> simp [clause, clauseLayout, clauseTail, hg]

theorem tokens_clause_patterns (c : Clause) :
    (clause .patterns level c).tokens =
      between (.symbol .comma) ((exprs level c.patterns).map tokens) ++
      clauseTail ((guards level c.guards).map tokens) ((exprs (level + 1) c.body).map tokens) := by
  rcases hg : guards level c.guards with _ | ⟨g, gs⟩ <;> simp [clause, clauseLayout, clauseTail, hg]

theorem tokens_clause_catchPatterns (c : Clause) :
    (clause .catchPatterns level c).tokens =
      between (.symbol .colon) ((exprs level c.patterns).map tokens) ++
      clauseTail ((guards level c.guards).map tokens) ((exprs (level + 1) c.body).map tokens) := by
  have hcolons : ∀ ls, (join (symbol .colon) ls).tokens =
      between (.symbol .colon) (ls.map tokens) :=
    tokens_join rfl
  rcases hg : guards level c.guards with _ | ⟨g, gs⟩ <;>
    simp [clause, clauseLayout, clauseTail, hg, hcolons]

theorem tokens_clause_guardsOnly (c : Clause) :
    (clause .guardsOnly level c).tokens =
      between (.symbol .semicolon) ((guards level c.guards).map tokens) ++
        .symbol .arrow :: between (.symbol .comma) ((exprs (level + 1) c.body).map tokens) := by
  simp [clause, clauseLayout]

theorem ClauseReads.guardSequence (h : ClauseReads b level c) (hne : c.guards ≠ []) :
    Derivation b .guardSequence (erase c.guards)
      (unplaced (between (.symbol .semicolon) ((Printer.guards level c.guards).map tokens)))
      (some (.symbol .arrow)) :=
  h.guards.separated (erase_ne_nil hne) (closesList_symbol (by decide) rfl)
    (closesList_symbol (s := .arrow) (by decide) rfl) (by simp)

/-- What stands behind the patterns of a clause reads as its guards and its body. -/
theorem ClauseReads.rest (h : ClauseReads b level c) (patterns : List (Located Expr))
    (hnext : ClosesList b next) :
    Derivation b (.clauseRest patterns) ⟨patterns, erase c.guards, erase c.body⟩
      (unplaced (clauseTail ((Printer.guards level c.guards).map tokens)
        ((exprs (level + 1) c.body).map tokens))) next := by
  have hbody := h.body.exprs h.nonempty hnext
  by_cases hg : c.guards = []
  · have d : Derivation b (.clauseRest patterns) _ _ next := .unguarded (a := sym .arrow) rfl hbody
    simpa [hg, clauseTail] using d
  · have d : Derivation b (.clauseRest patterns) _ _ next :=
      .guarded (w := word .when) (a := sym .arrow) rfl (h.guardSequence hg) rfl hbody
    rcases hgs : c.guards with _ | ⟨g, gs⟩
    · exact absurd hgs hg
    · rw [hgs] at d
      simpa [clauseTail] using d

/-- Behind the patterns of a clause an arrow or `when` is next. -/
theorem firstOf_clauseTail (gs body : List (List Token)) (next : Option Token) :
    firstOf (unplaced (clauseTail gs body)) next = some (.symbol .arrow) ∨
      firstOf (unplaced (clauseTail gs body)) next = some (.keyword .when) := by
  cases gs with
  | nil => exact .inl rfl
  | cons g gs => exact .inr rfl

theorem closes_clauseTail (gs body : List (List Token)) (next : Option Token) :
    Closes b (firstOf (unplaced (clauseTail gs body)) next) := by
  rcases firstOf_clauseTail gs body next with h | h
  · rw [h]
    exact closes_symbol (by decide) rfl
  · rw [h]
    exact closes_keyword rfl

/-- The layout of a clause with one pattern reads as a clause of `case`. -/
theorem ClauseReads.caseClause (h : ClauseReads b level c) (hlen : c.patterns.length = 1) {s : Span}
    (hnext : ClosesList b next) :
    Derivation b .caseClause (erase (⟨c, s⟩ : Located Clause))
      (unplaced (clause .patterns level c).tokens)
      next := by
  obtain ⟨ps, gs, body⟩ := c
  obtain ⟨p, rfl⟩ := List.length_eq_one_iff.mp hlen
  obtain ⟨hp, -⟩ := List.forall₂_cons.mp h.patterns
  have d : Derivation b .caseClause _ _ next :=
    .caseClause (hp _ (closes_clauseTail _ _ _)) (h.rest [erase p] hnext)
  rw [← unplaced_append, extent_unplaced] at d
  rw [tokens_clause_patterns]
  replace d : Derivation b .caseClause (erase (⟨⟨[p], gs, body⟩, s⟩ : Located Clause)) _ next := d
  simpa [between] using d

theorem ClauseReads.funClause (h : ClauseReads b level c) {s : Span} (hnext : ClosesList b next) :
    Derivation b (.funClause none) (erase (⟨c, s⟩ : Located Clause))
      (unplaced (clause .args level c).tokens) next := by
  have d : Derivation b (.funClause none) _ _ next :=
    .funClause h.patterns.argPatterns (h.rest (erase c.patterns) hnext)
  rw [← unplaced_append, extent_unplaced] at d
  rw [tokens_clause_args]
  exact d

theorem ClauseReads.namedFunClause (h : ClauseReads b level c) (name : String) {s : Span}
    (hnext : ClosesList b next) :
    Derivation b (.funClause (some name)) (erase (⟨c, s⟩ : Located Clause))
      (unplaced (.var name :: (clause .args level c).tokens)) next := by
  have d : Derivation b (.funClause (some name)) _ _ next :=
    .namedFunClause (t := (Token.var name).unplaced) rfl h.patterns.argPatterns
      (h.rest (erase c.patterns) hnext)
  rw [← unplaced_append, ← unplaced_cons, extent_unplaced] at d
  rw [tokens_clause_args]
  exact d

theorem ClauseReads.ifClause (h : ClauseReads b level c) (hps : c.patterns = [])
    (hgs : c.guards ≠ []) {s : Span} (hnext : ClosesList b next) :
    Derivation b .ifClause (erase (⟨c, s⟩ : Located Clause))
      (unplaced (clause .guardsOnly level c).tokens) next := by
  have d : Derivation b .ifClause _ _ next :=
    .ifClause (a := sym .arrow) (h.guardSequence hgs) rfl (h.body.exprs h.nonempty hnext)
  rw [← unplaced_cons, ← unplaced_append, extent_unplaced] at d
  rw [tokens_clause_guardsOnly]
  obtain ⟨ps, gs, body⟩ := c
  cases hps
  exact d

/-- The layout of a clause with three patterns reads as a catch clause, where no colon of a pattern
is taken for a separator. -/
theorem ClauseReads.catchClause (h : ClauseReads b level c) (hlen : c.patterns.length = 3)
    (hexposed : exprsExpose c.patterns = false) {s : Span} (hnext : ClosesList b next) :
    Derivation b .catchClause (erase (⟨c, s⟩ : Located Clause))
      (unplaced (clause .catchPatterns level c).tokens) next := by
  have hpatterns := h.separated hexposed
  obtain ⟨ps, gs, body⟩ := c
  obtain ⟨p, q, r, rfl⟩ := List.length_eq_three.mp hlen
  obtain ⟨hp, hrest⟩ := List.forall₂_cons.mp hpatterns
  obtain ⟨hq, hrest⟩ := List.forall₂_cons.mp hrest
  obtain ⟨hr, -⟩ := List.forall₂_cons.mp hrest
  have dpatterns : Derivation true .catchPatterns _ _
      (firstOf (unplaced (clauseTail ((Printer.guards level gs).map tokens)
        ((exprs (level + 1) body).map tokens))) next) :=
    .classReasonStack (t := sym .colon) (u := sym .colon) (hp _ closes_colon) rfl
      (hq _ closes_colon) rfl
      (hr _ (closes_clauseTail _ _ _))
  have d : Derivation b .catchClause _ _ next :=
    .catchClause dpatterns (h.rest [erase p, erase q, erase r] hnext)
  rw [← unplaced_cons, ← unplaced_append, ← unplaced_cons, ← unplaced_append, ← unplaced_append,
    extent_unplaced] at d
  rw [tokens_clause_catchPatterns]
  replace d : Derivation b .catchClause (erase (⟨⟨[p, q, r], gs, body⟩, s⟩ : Located Clause))
    _ next := d
  simpa [between] using d

/-! ### Lists of clauses -/

theorem elements_map {α : Type} {p : Phrase} {stop : Option Token → Prop} {f : α → p.Result}
    {g : α → List Token} {as : List α} :
    Elements p b stop (as.map f) (as.map g) ↔
      ∀ a ∈ as, ∀ next, stop next → Derivation b p (f a) (unplaced (g a)) next := by
  simp only [Elements, List.forall₂_map_left_iff, List.forall₂_map_right_iff, List.forall₂_same]

/-- Every clause of the list is read. -/
abbrev ClausesRead (b : Bool) (level : Nat) (cs : List (Located Clause)) : Prop :=
  ∀ c ∈ cs, ClauseReads b level c.node

theorem ClausesRead.caseClauses (h : ClausesRead b level cs)
    (hlen : ∀ c ∈ cs, c.node.patterns.length = 1) :
    Elements .caseClause b (ClosesList b) (erase cs) ((clauses .patterns level cs).map tokens) := by
  rw [clauses_eq_map, List.map_map]
  exact elements_map.mpr fun c hc next hnext => (h c hc).caseClause (hlen c hc) hnext

theorem ClausesRead.ifClauses (h : ClausesRead b level cs)
    (hshape : ∀ c ∈ cs, c.node.patterns = [] ∧ c.node.guards ≠ []) :
    Elements .ifClause b (ClosesList b) (erase cs) ((clauses .guardsOnly level cs).map tokens) := by
  rw [clauses_eq_map, List.map_map]
  exact elements_map.mpr fun c hc next hnext =>
    (h c hc).ifClause (hshape c hc).1 (hshape c hc).2 hnext

theorem ClausesRead.catchClauses (h : ClausesRead b level cs)
    (hlen : ∀ c ∈ cs, c.node.patterns.length = 3)
    (hexposed : ∀ c ∈ cs, exprsExpose c.node.patterns = false) :
    Elements .catchClause b (ClosesList b) (erase cs)
      ((clauses .catchPatterns level cs).map tokens) := by
  rw [clauses_eq_map, List.map_map]
  exact elements_map.mpr fun c hc next hnext =>
    (h c hc).catchClause (hlen c hc) (hexposed c hc) hnext

theorem ClausesRead.funClauses (h : ClausesRead b level cs) :
    Elements (.funClause none) b (ClosesList b) (erase cs)
      ((clauses .args level cs).map tokens) := by
  rw [clauses_eq_map, List.map_map]
  exact elements_map.mpr fun c hc next hnext => (h c hc).funClause hnext

theorem ClausesRead.namedFunClauses (h : ClausesRead b level cs) (name : String) :
    Elements (.funClause (some name)) b (ClosesList b) (erase cs)
      ((clauses .args level cs).map fun l => .var name :: l.tokens) := by
  rw [clauses_eq_map, List.map_map]
  exact elements_map.mpr fun c hc next hnext => (h c hc).namedFunClause name hnext

/-- Clauses with a semicolon between any two. -/
theorem Elements.clauses {p : Phrase} {rs : List p.Result} {tss : List (List Token)}
    (h : Elements p b (ClosesList b) rs tss) (hne : rs ≠ []) (hnext : ClosesList b next)
    (hsemicolon : next ≠ some (.symbol .semicolon)) :
    Derivation b (.separated (.symbol .semicolon) p) rs
      (unplaced (between (.symbol .semicolon) tss))
      next :=
  h.separated hne (closesList_symbol (by decide) rfl) hnext hsemicolon

/-! ### Nodes with clauses -/

theorem reads_block {es : List (Located Expr)} (h : ReadsEach b (level + 1) es) (hne : es ≠ []) :
    Reads b (.block es) (node level (.block es)).tokens := by
  refine .of_primary rfl fun next _ => ?_
  have hbody := h.exprs hne (closesList_keyword (k := .end_) rfl)
  have d : Derivation b .primary (Expr.block es).bare _ next :=
    .block (l := word .begin) (r := word .end_) rfl rfl hbody
  simpa using d

theorem reads_caseExpr {l : Located Expr} (h : ReadsExpr b level l)
    (hcs : ClausesRead b (level + 1) cs) (hne : cs ≠ [])
    (hlen : ∀ c ∈ cs, c.node.patterns.length = 1) :
    Reads b (.caseExpr l cs) (node level (.caseExpr l cs)).tokens := by
  refine .of_primary rfl fun next _ => ?_
  have hclauses :=
    (hcs.caseClauses hlen).clauses (erase_ne_nil hne) (closesList_keyword (k := .end_) rfl)
    (by simp)
  have d : Derivation b .primary (Expr.caseExpr l cs).bare _ next :=
    .caseExpr (l := word .case) (o := word .of) (r := word .end_) rfl rfl
      (h.closed (closes_keyword rfl))
      rfl hclauses
  simpa using d

theorem reads_ifExpr (hcs : ClausesRead b (level + 1) cs) (hne : cs ≠ [])
    (hshape : ∀ c ∈ cs, c.node.patterns = [] ∧ c.node.guards ≠ []) :
    Reads b (.ifExpr cs) (node level (.ifExpr cs)).tokens := by
  refine .of_primary rfl fun next _ => ?_
  have hclauses :=
    (hcs.ifClauses hshape).clauses (erase_ne_nil hne) (closesList_keyword (k := .end_) rfl)
    (by simp)
  have d : Derivation b .primary (Expr.ifExpr cs).bare _ next :=
    .ifExpr (l := word .if_) (r := word .end_) rfl rfl hclauses
  simpa using d

/-- The tokens of a fun, with its name in front of every clause. -/
theorem tokens_funLayout (level : Nat) (name : Layout) (ls : List Layout) :
    (funLayout level name ls).tokens =
      .keyword .fun_ :: (between (.symbol .semicolon) (ls.map fun l => name.tokens ++ l.tokens) ++
        [.keyword .end_]) := by
  have hjoin : ∀ ls : List Layout, (join (symbol .semicolon ++ [.newline (level + 1)]) ls).tokens =
      between (.symbol .semicolon) (ls.map tokens) := tokens_join rfl
  cases ls with
  | nil => rfl
  | cons l ls => simp [funLayout, hjoin, Function.comp_def]

theorem reads_funExpr (hcs : ClausesRead b (level + 1) cs) (hne : cs ≠ []) :
    Reads b (.funExpr none cs) (node level (.funExpr none cs)).tokens := by
  refine .of_primary rfl fun next _ => ?_
  have hclauses :=
    hcs.funClauses.clauses (erase_ne_nil hne) (closesList_keyword (k := .end_) rfl) (by simp)
  have d : Derivation b .primary (Expr.funExpr none cs).bare _ next :=
    .funExpr (l := word .fun_) (r := word .end_) rfl rfl hclauses
  simpa [tokens_funLayout] using d

theorem reads_namedFun (name : String) (hcs : ClausesRead b (level + 1) cs) (hne : cs ≠ []) :
    Reads b (.funExpr (some name) cs) (node level (.funExpr (some name) cs)).tokens := by
  refine .of_primary rfl fun next _ => ?_
  have hclauses := (hcs.namedFunClauses name).clauses (erase_ne_nil hne)
    (closesList_keyword (k := .end_) rfl) (by simp)
  have d : Derivation b .primary (Expr.funExpr (some name) cs).bare _ next :=
    .namedFun (l := word .fun_) (r := word .end_) rfl rfl hclauses
  simpa [tokens_funLayout] using d

/-! ### Sections -/

/-- The tokens of a part of an expression that is left out if there is nothing in it. -/
def sectionTokens (k : Keyword) (separator : Symbol) (tss : List (List Token)) : List Token :=
  match tss with
  | [] => []
  | _ => .keyword k :: between (.symbol separator) tss

theorem tokens_section_lines (level n : Nat) (k : Keyword) (s : Symbol) (ls : List Layout) :
    (section_ level k (lines n s ls)).tokens = sectionTokens k s (ls.map tokens) := by
  cases ls with
  | nil => rfl
  | cons l ls =>
      obtain ⟨p, ps, hlines⟩ : ∃ p ps, lines n s (l :: ls) = p :: ps := by
        cases ls <;> exact ⟨_, _, rfl⟩
      have htokens := tokens_lines n s (l :: ls)
      rw [hlines] at htokens ⊢
      simp [section_, sectionTokens, htokens]

theorem firstOf_sectionTokens (k : Keyword) (s : Symbol) (tss : List (List Token))
    (next : Option Token) :
    firstOf (unplaced (sectionTokens k s tss)) next = next ∨
      firstOf (unplaced (sectionTokens k s tss)) next = some (.keyword k) := by
  cases tss with
  | nil => exact .inl rfl
  | cons ts tss => exact .inr rfl

/-- A section reads as its part of the expression, and where there is none the next token tells
so. -/
theorem Elements.part {p : Phrase} {stop : Option Token → Prop} {rs : List p.Result}
    {tss : List (List Token)} {s : Symbol} {k : Keyword} (h : Elements p b stop rs tss)
    (hs : stop (some (.symbol s))) (hnext : stop next) (hseparator : next ≠ some (.symbol s))
    (hkeyword : next ≠ some (.keyword k)) :
    Derivation b (.part k (.symbol s) p) rs (unplaced (sectionTokens k s tss)) next := by
  cases tss with
  | nil =>
      cases h
      exact .partNone hkeyword
  | cons ts tss =>
      have hne : rs ≠ [] := by
        rintro rfl
        cases h
      exact .partSome (t := word k) rfl (h.separated hne hs hnext hseparator)

/-- One of the keywords that end a section. -/
def EndsSection (ks : List Keyword) (next : Option Token) : Prop :=
  ∃ k ∈ ks, next = some (.keyword k)

theorem EndsSection.closesList {ks : List Keyword} (h : EndsSection ks next)
    (hks : ∀ k ∈ ks, connective? (.keyword k) = none) : ClosesList b next := by
  obtain ⟨k, hk, rfl⟩ := h
  exact closesList_keyword (hks k hk)

theorem EndsSection.ne_symbol {ks : List Keyword} (h : EndsSection ks next) (s : Symbol) :
    next ≠ some (.symbol s) := by
  obtain ⟨k, -, rfl⟩ := h
  simp

theorem EndsSection.ne_keyword {ks : List Keyword} {k : Keyword} (h : EndsSection ks next)
    (hk : k ∉ ks) : next ≠ some (.keyword k) := by
  obtain ⟨k', hk', rfl⟩ := h
  rintro ⟨⟩
  exact hk hk'

/-- In front of a section stands its word, or what stands behind it if the section is empty. -/
theorem EndsSection.before {ks : List Keyword} (h : EndsSection ks next) (k : Keyword) (s : Symbol)
    (tss : List (List Token)) :
    EndsSection (k :: ks) (firstOf (unplaced (sectionTokens k s tss)) next) := by
  rcases firstOf_sectionTokens k s tss next with hfirst | hfirst
  · obtain ⟨k', hk', hnext⟩ := h
    exact ⟨k', List.mem_cons_of_mem k hk', hfirst.trans hnext⟩
  · exact ⟨k, List.mem_cons_self, hfirst⟩

/-- A `try` reads back, its sections told apart by their words. -/
theorem reads_tryExpr {es as : List (Located Expr)} {os : List (Located Clause)}
    (hes : ReadsEach b (level + 1) es) (hne : es ≠ []) (hos : ClausesRead b (level + 1) os)
    (hoslen : ∀ c ∈ os, c.node.patterns.length = 1) (hcs : ClausesRead b (level + 1) cs)
    (hcslen : ∀ c ∈ cs, c.node.patterns.length = 3)
    (hexposed : ∀ c ∈ cs, exprsExpose c.node.patterns = false) (has : ReadsEach b (level + 1) as)
    (hsome : cs ≠ [] ∨ as ≠ []) :
    Reads b (.tryExpr es os cs as) (node level (.tryExpr es os cs as)).tokens := by
  refine .of_primary rfl fun next _ => ?_
  have hend : EndsSection [.end_] (some (.keyword .end_)) := ⟨.end_, by simp, rfl⟩
  have hafter := hend.before .after .comma ((exprs (level + 1) as).map tokens)
  have hcatch :=
    hafter.before .catch_ .semicolon ((clauses .catchPatterns (level + 1) cs).map tokens)
  have hof := hcatch.before .of .semicolon ((clauses .patterns (level + 1) os).map tokens)
  have dbody := hes.exprs hne (hof.closesList (by decide))
  have dof := (hos.caseClauses hoslen).part (k := .of) (s := .semicolon)
    (closesList_symbol (by decide) rfl) (hcatch.closesList (by decide)) (hcatch.ne_symbol _)
    (hcatch.ne_keyword (by decide))
  have dcatch := (hcs.catchClauses hcslen hexposed).part (k := .catch_) (s := .semicolon)
    (closesList_symbol (by decide) rfl) (hafter.closesList (by decide)) (hafter.ne_symbol _)
    (hafter.ne_keyword (by decide))
  have dafter := Elements.part (k := .after) (s := .comma) has (closes_symbol (by decide) rfl)
    (closes_keyword rfl) (hend.ne_symbol _) (hend.ne_keyword (by decide))
  have d : Derivation b .primary (Expr.tryExpr es os cs as).bare _ next :=
    .tryExpr (l := word .try_) (r := word .end_) rfl rfl dbody dof dcatch dafter
      (hsome.imp erase_ne_nil erase_ne_nil)
  simpa [tokens_section_lines] using d

/-- The parts behind `after` read as themselves. -/
structure AfterReads (b : Bool) (level : Nat) (a : After) : Prop where
  timeout : ReadsExpr b (level + 1) a.timeout
  body : ReadsEach b (level + 2) a.body

theorem AfterReads.closed {a : After} (h : AfterReads b level a) (hne : a.body ≠ [])
    (hnext : ClosesList b next) :
    Derivation b .after (erase (some a))
      (unplaced (section_ level .after (after level (some a))).tokens)
      next := by
  obtain ⟨timeout, body⟩ := a
  have dtimeout := h.timeout.closed (closes_symbol (s := .arrow) (by decide) rfl)
  have d : Derivation b .after (erase (some (⟨timeout, body⟩ : After))) _ next :=
    .after (t := word .after) (a := sym .arrow) rfl dtimeout rfl (h.body.exprs hne hnext)
  simpa [section_] using d

theorem reads_receiveExpr (hcs : ClausesRead b (level + 1) cs) (hne : cs ≠ [])
    (hlen : ∀ c ∈ cs, c.node.patterns.length = 1) :
    Reads b (.receiveExpr cs none) (node level (.receiveExpr cs none)).tokens := by
  refine .of_primary rfl fun next _ => ?_
  have hclauses :=
    (hcs.caseClauses hlen).clauses (erase_ne_nil hne) (closesList_keyword (k := .end_) rfl)
    (by simp)
  have d : Derivation b .primary (Expr.receiveExpr cs none).bare _ next :=
    .receiveExpr (l := word .receive) (r := word .end_) rfl rfl (by simpa using hclauses)
      (.noAfter (by simp))
  simpa [section_] using d

/-- A `receive` with a timeout reads back, also if it has no clauses. -/
theorem reads_receiveAfter {a : After} (hcs : ClausesRead b (level + 1) cs)
    (hlen : ∀ c ∈ cs, c.node.patterns.length = 1) (ha : AfterReads b level a) (hne : a.body ≠ []) :
    Reads b (.receiveExpr cs (some a)) (node level (.receiveExpr cs (some a))).tokens := by
  refine .of_primary rfl fun next _ => ?_
  have dafter : Derivation b .after _ _ (some (.keyword .end_)) :=
    ha.closed hne (closesList_keyword (k := .end_) rfl)
  by_cases hcsne : cs = []
  · subst hcsne
    have d : Derivation b .primary (Expr.receiveExpr [] (some a)).bare _ next :=
      .receiveAfter (l := word .receive) (r := word .end_) rfl rfl dafter
    simpa [lines, Layout.join] using d
  · have hfirst : firstOf (unplaced (section_ level .after (after level (some a))).tokens)
        (some (.keyword .end_)) = some (.keyword .after) := by
      obtain ⟨timeout, body⟩ := a
      rfl
    have hclauses := (hcs.caseClauses hlen).clauses (erase_ne_nil hcsne)
      (closesList_keyword (k := .after) rfl) (by simp)
    rw [← hfirst] at hclauses
    have d : Derivation b .primary (Expr.receiveExpr cs (some a)).bare _ next :=
      .receiveExpr (l := word .receive) (r := word .end_) rfl rfl hclauses dafter
    simpa using d

end Printer

end ErlangFragment
