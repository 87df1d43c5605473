import ErlangFragment.Proofs.Printer.Lists

/-! Every kind of node reads as itself if its parts do. -/

namespace ErlangFragment

open Grammar Printer Layout

namespace Printer

/-- The symbol outside of any text. -/
abbrev sym (s : Symbol) : Located Token := (Token.symbol s).unplaced

/-- The keyword outside of any text. -/
abbrev word (k : Keyword) : Located Token := (Token.keyword k).unplaced

/-! ### What stands behind a part -/

/-- Nothing goes on at a symbol that is no operator and opens nothing. -/
theorem closes_symbol {b : Bool} {s : Symbol} (hs : s ∉ [.leftParen, .hash, .colon])
    (hop : connective? (.symbol s) = none) : Closes b (some (.symbol s)) := by
  simp only [List.mem_cons, List.not_mem_nil, or_false, not_or] at hs
  exact ⟨⟨⟨by simp [hs.1], by simp [hs.2.1], by simp [hs.2.2]⟩, by simp⟩, hop⟩

theorem closes_keyword {b : Bool} {k : Keyword} (hop : connective? (.keyword k) = none) :
    Closes b (some (.keyword k)) :=
  ⟨⟨⟨by simp, by simp, by simp⟩, by simp⟩, hop⟩

theorem closes_colon : Closes true (some (.symbol .colon)) :=
  ⟨⟨⟨by simp, by simp, by simp⟩, by simp⟩, rfl⟩

/-- Behind the token the last expression of a list is complete, and so is the list. -/
structure ClosesList (b : Bool) (next : Option Token) : Prop extends Closes b next where
  comma : next ≠ some (.symbol .comma)

theorem closesList_symbol {b : Bool} {s : Symbol} (hs : s ∉ [.leftParen, .hash, .colon, .comma])
    (hop : connective? (.symbol s) = none) : ClosesList b (some (.symbol s)) := by
  simp only [List.mem_cons, List.not_mem_nil, or_false, not_or] at hs
  exact ⟨closes_symbol (by simp [hs.1, hs.2.1, hs.2.2.1]) hop, by simp [hs.2.2.2]⟩

theorem closesList_keyword {b : Bool} {k : Keyword} (hop : connective? (.keyword k) = none) :
    ClosesList b (some (.keyword k)) :=
  ⟨closes_keyword hop, by simp⟩

/-- Behind the token a qualifier is complete. -/
structure ClosesQualifier (b : Bool) (next : Option Token) : Prop extends Closes b next where
  leftArrow : next ≠ some (.symbol .leftArrow)
  leftDoubleArrow : next ≠ some (.symbol .leftDoubleArrow)

/-- Behind the token a segment is complete. -/
structure ClosesSegment (next : Option Token) : Prop where
  string : ∀ s, next ≠ some (.string s)
  colon : next ≠ some (.symbol .colon)
  slash : next ≠ some (.symbol .slash)
  minus : next ≠ some (.symbol .minus)

/-! ### Parts of a node -/

/-- The expressions of a list, each of them in front of what closes it. -/
abbrev ReadsEach (b : Bool) (level : Nat) (es : List (Located Expr)) : Prop :=
  Elements .expression b (Closes b) (erase es) ((exprs level es).map tokens)

/-- The layout of an expression reads as the expression. -/
abbrev ReadsExpr (b : Bool) (level : Nat) (e : Located Expr) : Prop :=
  Reads b e.node (expr level e).tokens

variable {b : Bool} {level : Nat} {e : Expr} {l r : Located Expr} {es args : List (Located Expr)}
  {next : Option Token}

theorem erase_ne_nil {α : Type} [Erasable α] {as : List α} (h : as ≠ []) : erase as ≠ [] :=
  fun hnil => h (List.map_eq_nil_iff.mp hnil)

theorem span_erase (l : Located Expr) : (erase l).span = .nowhere := by
  rw [erase_eq_bare, span_bare]

/-- A whole expression, where nothing goes on behind it. -/
theorem ReadsExpr.closed (h : ReadsExpr b level l) (hnext : Closes b next) :
    Derivation b .expression (erase l) (unplaced (expr level l).tokens) next := by
  rw [erase_eq_bare]
  exact h.expression next hnext

theorem tokens_base (l : Located Expr) :
    (base level l).tokens = wrap (baseNeedsParens l.node) (expr level l).tokens := by
  rw [base_eq, tokens_parensIf]

theorem tokens_bare (l : Located Expr) :
    (bare level l).tokens = wrap (!isBare l.node) (expr level l).tokens := by
  rw [bare_eq, tokens_parensIf]

/-- One token, or the expression in parentheses. -/
theorem ReadsExpr.single (hf : ReadsExpr false level l)
    (h : isBare l.node = true → ReadsExpr b level l) (hnext : ∀ s, next ≠ some (.string s)) :
    Derivation b .primary (erase l) (unplaced (bare level l).tokens) next := by
  rw [erase_eq_bare, tokens_bare]
  exact Reads.bare hf h hnext

/-- Expressions between commas read as a sequence. -/
theorem ReadsEach.exprs (h : ReadsEach b level es) (hne : es ≠ []) (hnext : ClosesList b next) :
    Derivation b .exprs (erase es)
      (unplaced (between (.symbol .comma) ((Printer.exprs level es).map tokens))) next :=
  Elements.separated h (erase_ne_nil hne) (closes_symbol (by decide) rfl) hnext.toCloses hnext.comma

/-- Arguments in parentheses. -/
theorem ReadsEach.arguments (h : ReadsEach false level args) :
    Derivation b .arguments (erase args)
      (unplaced (parens (commas (Printer.exprs level args))).tokens)
      next := by
  cases args with
  | nil => exact .argumentsNil (l := sym .leftParen) (r := sym .rightParen) rfl rfl
  | cons e es =>
      have hlist :=
        h.exprs (List.cons_ne_nil e es) (closesList_symbol (s := .rightParen) (by decide) rfl)
      have d : Derivation b .arguments _ _ next :=
        .arguments (l := sym .leftParen) (r := sym .rightParen) rfl rfl hlist
      simpa using d

theorem ReadsEach.argPatterns (h : ReadsEach b level args) :
    Derivation b .argPatterns (erase args)
      (unplaced (parens (commas (Printer.exprs level args))).tokens) next := by
  cases args with
  | nil => exact .argPatternsNil (l := sym .leftParen) (r := sym .rightParen) rfl rfl
  | cons e es =>
      have hlist :=
        h.exprs (List.cons_ne_nil e es) (closesList_symbol (s := .rightParen) (by decide) rfl)
      have d : Derivation b .argPatterns _ _ next :=
        .argPatterns (l := sym .leftParen) (r := sym .rightParen) rfl rfl hlist
      simpa using d

/-- Fields between commas in braces. -/
theorem Elements.braced {p : Phrase} {rs : List p.Result} {tss : List (List Token)}
    (h : Elements p b (Closes b) rs tss) :
    Derivation b (.braced p) rs
      (unplaced (.symbol .leftBrace :: (between (.symbol .comma) tss ++ [.symbol .rightBrace])))
      next := by
  by_cases hrs : rs = []
  · subst hrs
    cases h
    exact .bracedNil (l := sym .leftBrace) (r := sym .rightBrace) rfl rfl
  · have hlist := Elements.separated (s := .symbol .comma) h hrs (closes_symbol (by decide) rfl)
      (closes_symbol (s := .rightBrace) (by decide) rfl) (by simp)
    have d : Derivation b (.braced p) _ _ next :=
      .braced (l := sym .leftBrace) (r := sym .rightBrace) rfl rfl hlist
    simpa using d

/-! ### Leaves and brackets -/

/-- A node of one token reads as itself. -/
theorem reads_simple {t : Token} (ht : simple? t = some e) (he : e.eraseParts = e)
    (hp : printsPrimary e = true) : Reads b e [t] := by
  refine .of_primary hp fun next _ => ?_
  have d : Derivation b .primary _ [t.unplaced] next := .simple ht
  rw [Expr.bare, he]
  exact d

theorem reads_string (text : String) : Reads b (.string text) [.string text] := by
  refine .of_primary rfl fun next hnext => ?_
  have hrun : StringRun [(Token.string text).unplaced] [text] := rfl
  have d : Derivation b .primary _ [(Token.string text).unplaced] next :=
    .strings (by simp) hrun hnext.string
  have hextent : extent [(Token.string text).unplaced] = .nowhere := extent_unplaced [.string text]
  simpa [Expr.bare, Expr.eraseParts, hextent] using d

theorem reads_tuple (h : ReadsEach b level es) :
    Reads b (.tuple es) (node level (.tuple es)).tokens := by
  refine .of_primary rfl fun next _ => ?_
  cases es with
  | nil => exact .tupleNil (l := sym .leftBrace) (r := sym .rightBrace) rfl rfl
  | cons e es =>
      have hlist :=
        h.exprs (List.cons_ne_nil e es) (closesList_symbol (s := .rightBrace) (by decide) rfl)
      have d : Derivation b .primary (Expr.tuple (e :: es)).bare _ next :=
        .tuple (l := sym .leftBrace) (r := sym .rightBrace) rfl rfl hlist
      simpa using d

/-- A list without a tail. -/
theorem reads_list (h : ReadsEach b level es) :
    Reads b (.list es none) (node level (.list es none)).tokens := by
  refine .of_primary rfl fun next _ => ?_
  cases es with
  | nil => exact .listNil (l := sym .leftBracket) (r := sym .rightBracket) rfl rfl
  | cons e es =>
      have hlist := h.exprs (List.cons_ne_nil e es)
        (closesList_symbol (s := .rightBracket) (by decide) rfl)
      have d : Derivation b .primary (Expr.list (e :: es) none).bare _ next :=
        .list (l := sym .leftBracket) (r := sym .rightBracket) rfl rfl hlist
      simpa using d

/-- A list with a tail. -/
theorem reads_listTail {tail : Located Expr} (h : ReadsEach b level es) (hne : es ≠ [])
    (ht : ReadsExpr b level tail) :
    Reads b (.list es (some tail)) (node level (.list es (some tail))).tokens := by
  refine .of_primary rfl fun next _ => ?_
  have hlist := h.exprs hne (closesList_symbol (s := .pipe) (by decide) rfl)
  have htail := ht.closed (closes_symbol (s := .rightBracket) (by decide) rfl)
  have d : Derivation b .primary (Expr.list es (some tail)).bare _ next :=
    .listTail (l := sym .leftBracket) (p := sym .pipe) (r := sym .rightBracket) rfl rfl
      hlist rfl htail
  simpa using d

/-! ### Operators -/

theorem connective_token (op : BinaryOp) : connective? op.token = some (some op) := by
  cases op <;> rfl

theorem unaryOp_token (op : UnaryOp) : UnaryOp.ofToken? op.token = some op := by
  cases op <;> rfl

theorem bare_matchExpr (l r : Located Expr) :
    (Expr.matchExpr l r).bare = join l.node.bare r.node.bare none := by
  obtain ⟨l, s⟩ := l
  obtain ⟨r, s⟩ := r
  rw [← erase_eq_bare, ← erase_eq_bare]
  rfl

theorem bare_binaryOp (op : BinaryOp) (l r : Located Expr) :
    (Expr.binaryOp op l r).bare = join l.node.bare r.node.bare (some op) := by
  obtain ⟨l, s⟩ := l
  obtain ⟨r, s⟩ := r
  rw [← erase_eq_bare, ← erase_eq_bare]
  rfl

/-- Each side of a match may stand without parentheses as far as its own operator holds tightly
enough. -/
theorem reads_matchExpr (hlf : ReadsExpr false level l)
    (hl : leftNeedsParens matchPower false l.node = false → ReadsExpr b level l)
    (hrf : ReadsExpr false level r)
    (hr : rightNeedsParens matchPower r.node = false → ReadsExpr b level r) :
    Reads b (.matchExpr l r) (node level (.matchExpr l r)).tokens := by
  have h : Reads b (.matchExpr l r) (wrap (leftNeedsParens matchPower false l.node) _ ++
      .symbol .equal :: wrap (rightNeedsParens matchPower r.node) _) :=
    reads_operator (t := .symbol .equal) rfl rfl rfl (bare_matchExpr l r) hlf hl hrf hr
  simpa using h

/-- Each operand may stand without parentheses as far as its own operator holds tightly enough. -/
theorem reads_binaryOp (op : BinaryOp) (hlf : ReadsExpr false level l)
    (hl : leftNeedsParens op.power op.isComparison l.node = false → ReadsExpr b level l)
    (hrf : ReadsExpr false level r)
    (hr : rightNeedsParens op.power r.node = false → ReadsExpr b level r) :
    Reads b (.binaryOp op l r) (node level (.binaryOp op l r)).tokens := by
  have h : Reads b (.binaryOp op l r) (wrap (leftNeedsParens op.power op.isComparison l.node) _ ++
      op.token :: wrap (rightNeedsParens op.power r.node) _) :=
    reads_operator (connective_token op) rfl rfl (bare_binaryOp op l r) hlf hl hrf hr
  simpa using h

theorem reads_unaryOp (op : UnaryOp) (hf : ReadsExpr false level l)
    (h : operandNeedsParens l.node = false → ReadsExpr b level l) :
    Reads b (.unaryOp op l) (node level (.unaryOp op l)).tokens := by
  refine .of_unary rfl (by simp [printsPrimary]) (by simp [baseNeedsParens]) fun next hnext => ?_
  have hoperand := Reads.operand hf h hnext
  rw [← erase_eq_bare] at hoperand
  obtain ⟨l, s⟩ := l
  have d : Derivation b .unary (Expr.unaryOp op ⟨l, s⟩).bare _ next :=
    .unaryOp (t := op.token.unplaced) (unaryOp_token op) hoperand
  simpa using d

/-- A `catch` takes everything up to the end of the expression. -/
theorem reads_catchExpr (h : ReadsExpr b level l) :
    Reads b (.catchExpr l) (node level (.catchExpr l)).tokens where
  primary := by simp [printsPrimary]
  applied := by simp [baseNeedsParens, operandNeedsParens, isCatch]
  unary := by simp [operandNeedsParens, isCatch]
  binary := by simp [isCatch]
  expression next hnext := by
    obtain ⟨l, s⟩ := l
    have d : Derivation b .expression (Expr.catchExpr ⟨l, s⟩).bare _ next :=
      .catchExpr (t := word .catch_) rfl (h.closed hnext)
    simpa using d

/-! ### What is applied to a base -/

/-- The tokens behind the base go on with it. -/
theorem reads_applied {t : Token} (ts : List Token) (hbase : baseNeedsParens e = false)
    (hprimary : printsPrimary e = false) (hf : ReadsExpr false level l)
    (h : baseNeedsParens l.node = false → ReadsExpr b level l) (hfollows : Follows l.node (some t))
    (hrest : ∀ us e' next, Follows e (firstOf us next) →
      Derivation b (.postfixes e.bare) e' us next →
      Derivation b (.postfixes (erase l)) e' (unplaced (t :: ts) ++ us) next) :
    Reads b e ((base level l).tokens ++ t :: ts) := by
  refine .of_applied hbase (by simp [hprimary]) fun us e' next hnext d => ?_
  have drest := hrest us e' next hnext d
  rw [erase_eq_bare] at drest
  rw [tokens_base, unplaced_append, List.append_assoc]
  exact Reads.base hf h hfollows drest

theorem follows_symbol {s : Symbol} (hs : s ≠ .leftParen) : Follows e (some (.symbol s)) :=
  ⟨by simp, by simp [hs]⟩

/-- A call, of anything that does not take the parentheses for its own. -/
theorem reads_call (hends : endsInMacro l.node = false) (hf : ReadsExpr false level l)
    (h : baseNeedsParens l.node = false → ReadsExpr b level l)
    (hargs : ReadsEach false level args) :
    Reads b (.call l args) (node level (.call l args)).tokens := by
  have happlied := reads_applied (e := .call l args) (t := .symbol .leftParen)
    (between (.symbol .comma) ((exprs level args).map tokens) ++ [.symbol .rightParen])
    rfl rfl hf h ⟨by simp, by simp [hends]⟩ fun us e' next _ d => ?_
  · simpa using happlied
  have dargs : Derivation b .arguments (erase args) _ (firstOf us next) := hargs.arguments
  rw [tokens_parens, tokens_commas] at dargs
  refine .call dargs ?_
  rw [span_erase, lastSpan_unplaced]
  exact d

/-- A call in a module. It is read only where a colon does not separate. -/
theorem reads_remoteCall {m : Located Expr} {s : Span} (hm : ReadsExpr false level m)
    (hf : ReadsExpr false level l) (hargs : ReadsEach false level args) :
    Reads false (.call ⟨.remote m l, s⟩ args)
      (node level (.call ⟨.remote m l, s⟩ args)).tokens := by
  have happlied := reads_applied (e := .call ⟨.remote m l, s⟩ args) (t := .symbol .colon)
    ((bare level l).tokens ++ (parens (commas (exprs level args))).tokens)
    rfl rfl hm (fun _ => hm) (follows_symbol (by decide)) fun us e' next _ d => ?_
  · simpa [base_eq, baseNeedsParens, operandNeedsParens, power?, isCatch, parensIf,
      expr_mk] using happlied
  have dargs : Derivation false .arguments (erase args) _ (firstOf us next) := hargs.arguments
  have dfunction : Derivation false .primary (erase l) _
      (firstOf (unplaced (parens (commas (exprs level args))).tokens) (firstOf us next)) :=
    hf.single (fun _ => hf) (by simp)
  rw [unplaced_cons, unplaced_append, List.cons_append, List.append_assoc]
  refine .remoteCall rfl rfl dfunction dargs ?_
  rw [span_erase, span_erase, lastSpan_unplaced]
  exact d

theorem reads_mapUpdate {fs : List MapField} (hf : ReadsExpr false level l)
    (h : baseNeedsParens l.node = false → ReadsExpr b level l)
    (hfields : Elements .mapField b (Closes b) (erase fs) ((mapFields level fs).map tokens)) :
    Reads b (.map (some l) fs) (node level (.map (some l) fs)).tokens := by
  have happlied := reads_applied (e := .map (some l) fs) (t := .symbol .hash)
    ((enclose .leftBrace .rightBrace (commas (mapFields level fs))).tokens)
    rfl rfl hf h (follows_symbol (by decide)) fun us e' next _ d => ?_
  · simpa using happlied
  have dfields : Derivation b (.braced .mapField) _ _ (firstOf us next) := hfields.braced
  rw [tokens_enclose, tokens_commas, unplaced_cons, List.cons_append]
  refine .mapUpdate rfl dfields ?_
  rw [span_erase, span_unplaced, lastSpan_unplaced]
  exact d

theorem reads_recordUpdate {name : String} {fs : List RecordField} (hf : ReadsExpr false level l)
    (h : baseNeedsParens l.node = false → ReadsExpr b level l)
    (hfields : Elements .recordField b (Closes b) (erase fs) ((recordFields level fs).map tokens)) :
    Reads b (.record (some l) name fs) (node level (.record (some l) name fs)).tokens := by
  have happlied := reads_applied (e := .record (some l) name fs) (t := .symbol .hash)
    (.atom name :: (enclose .leftBrace .rightBrace (commas (recordFields level fs))).tokens)
    rfl rfl hf h (follows_symbol (by decide)) fun us e' next _ d => ?_
  · simpa using happlied
  have dfields : Derivation b (.braced .recordField) _ _ (firstOf us next) := hfields.braced
  rw [tokens_enclose, tokens_commas, unplaced_cons, unplaced_cons (.atom name), List.cons_append,
    List.cons_append]
  refine .recordUpdate rfl rfl dfields ?_
  rw [span_erase, span_unplaced, lastSpan_unplaced]
  exact d

/-- A field of a record. -/
theorem reads_recordAccess {name field : String} (hf : ReadsExpr false level l)
    (h : baseNeedsParens l.node = false → ReadsExpr b level l) :
    Reads b (.recordAccess l name field) (node level (.recordAccess l name field)).tokens := by
  have happlied := reads_applied (e := .recordAccess l name field) (t := .symbol .hash)
    [.atom name, .symbol .dot, .atom field] rfl rfl hf h (follows_symbol (by decide))
    fun us e' next _ d => ?_
  · simpa using happlied
  refine .recordAccess rfl rfl rfl rfl ?_
  rw [span_erase]
  exact d

/-! ### Fields, qualifiers and segments -/

theorem reads_map {fs : List MapField}
    (h : Elements .mapField b (Closes b) (erase fs) ((mapFields level fs).map tokens)) :
    Reads b (.map none fs) (node level (.map none fs)).tokens := by
  refine .of_primary rfl fun next _ => ?_
  have d : Derivation b .primary _ _ next := .map (t := sym .hash) rfl h.braced
  rw [span_unplaced, lastSpan_unplaced] at d
  replace d : Derivation b .primary (Expr.map none fs).bare _ next := d
  simpa using d

theorem reads_record {name : String} {fs : List RecordField}
    (h : Elements .recordField b (Closes b) (erase fs) ((recordFields level fs).map tokens)) :
    Reads b (.record none name fs) (node level (.record none name fs)).tokens := by
  refine .of_primary rfl fun next _ => ?_
  have d : Derivation b .primary _ _ next :=
    .record (t := sym .hash) (n := (Token.atom name).unplaced) rfl rfl h.braced
  rw [span_unplaced, span_unplaced, lastSpan_unplaced] at d
  replace d : Derivation b .primary (Expr.record none name fs).bare _ next := d
  simpa using d

theorem reads_recordIndex (name field : String) :
    Reads b (.recordIndex name field) (node level (.recordIndex name field)).tokens :=
  .of_primary rfl fun _ _ =>
    .recordIndex (t := sym .hash) (n := (Token.atom name).unplaced) (d := sym .dot)
      (f := (Token.atom field).unplaced) rfl rfl rfl rfl

/-- A field of a map, where no other operator stands behind it. -/
theorem mapField_closed (op : MapOp) (hkey : ReadsExpr b level l) (hvalue : ReadsExpr b level r)
    (hnext : Closes b next) :
    Derivation b .mapField (erase (⟨l, op, r⟩ : MapField))
      (unplaced (expr level l ++ spaced (mapOp op) ++ expr level r).tokens) next := by
  cases op with
  | assoc =>
      have d : Derivation b .mapField (erase (⟨l, .assoc, r⟩ : MapField)) _ next :=
        .assocField (t := sym .fatArrow) (hkey.closed (closes_symbol (by decide) rfl)) rfl
          (hvalue.closed hnext)
      simpa [mapOp] using d
  | exact =>
      have d : Derivation b .mapField (erase (⟨l, .exact, r⟩ : MapField)) _ next :=
        .exactField (t := sym .colonEqual) (hkey.closed (closes_symbol (by decide) rfl)) rfl
          (hvalue.closed hnext)
      simpa [mapOp] using d

theorem tokens_fieldName (name : String) :
    ∃ t : Token, (fieldName name).tokens = [t] ∧ (t = .atom name ∨ t = .var name) := by
  by_cases hname : name = "_"
  · exact ⟨.var name, by simp [fieldName, hname], .inr rfl⟩
  · exact ⟨.atom name, by simp [fieldName, hname], .inl rfl⟩

theorem recordField_closed (name : Located String) (hvalue : ReadsExpr b level l)
    (hnext : Closes b next) :
    Derivation b .recordField (erase (⟨name, l⟩ : RecordField))
      (unplaced (fieldName name.node ++ spaced (.symbol .equal) ++ expr level l).tokens) next := by
  obtain ⟨t, htokens, ht⟩ := tokens_fieldName name.node
  have d : Derivation b .recordField (erase (⟨name, l⟩ : RecordField)) _ next :=
    .recordField (n := t.unplaced) (t := sym .equal) ht rfl (hvalue.closed hnext)
  simpa [htokens] using d

theorem generator_closed (hpattern : ReadsExpr b level l) (hsource : ReadsExpr b level r)
    (hnext : Closes b next) :
    Derivation b .qualifier (erase (Qualifier.generator l r))
      (unplaced (expr level l ++ spaced (.symbol .leftArrow) ++ expr level r).tokens) next := by
  have d : Derivation b .qualifier (erase (Qualifier.generator l r)) _ next :=
    .generator (t := sym .leftArrow) (hpattern.closed (closes_symbol (by decide) rfl)) rfl
      (hsource.closed hnext)
  simpa using d

theorem binaryGenerator_closed (hpattern : ReadsExpr b level l) (hsource : ReadsExpr b level r)
    (hnext : Closes b next) :
    Derivation b .qualifier (erase (Qualifier.binaryGenerator l r))
      (unplaced (expr level l ++ spaced (.symbol .leftDoubleArrow) ++ expr level r).tokens)
      next := by
  have d : Derivation b .qualifier (erase (Qualifier.binaryGenerator l r)) _ next :=
    .binaryGenerator (t := sym .leftDoubleArrow)
      (hpattern.closed (closes_symbol (by decide) rfl)) rfl
      (hsource.closed hnext)
  simpa using d

theorem filter_closed (h : ReadsExpr b level l) (hnext : ClosesQualifier b next) :
    Derivation b .qualifier (erase (Qualifier.filter l)) (unplaced (expr level l).tokens) next :=
  .filter (h.closed hnext.toCloses) hnext.leftArrow hnext.leftDoubleArrow

theorem tokens_segmentType (t : SegmentType) :
    (segmentType t).tokens =
      .atom t.name :: (t.arg.map fun n => [.symbol .colon, .integer (.small n)]).getD [] := by
  obtain ⟨name, _ | n⟩ := t <;> simp [segmentType]

theorem elements_segmentTypes (types : List SegmentType) :
    Elements .segmentType b (· ≠ some (.symbol .colon)) types
      ((types.map segmentType).map tokens) := by
  induction types with
  | nil => exact .nil
  | cons t types ih =>
      refine .cons (fun next hnext => ?_) ih
      rw [tokens_segmentType]
      obtain ⟨name, _ | n⟩ := t
      · exact .segmentType (t := (Token.atom name).unplaced) rfl hnext
      · exact .segmentTypeArg (t := (Token.atom name).unplaced) (u := sym .colon)
          (v := (Token.integer (.small n)).unplaced) rfl rfl rfl

/-- The types of a segment, as many as there are up to a token that goes on with none. -/
theorem segmentTypes_closed (types : List SegmentType) (hnext : ClosesSegment next) :
    Derivation b .segmentTypes types (unplaced (segmentTypes types).tokens) next := by
  cases types with
  | nil => exact .segmentTypesNil hnext.slash
  | cons t types =>
      have hlist :=
        (elements_segmentTypes (b := b) (t :: types)).separated (s := .symbol .minus) (by simp)
        (by simp) hnext.colon hnext.minus
      have d : Derivation b .segmentTypes _ _ next := .segmentTypes (t := sym .slash) rfl hlist
      have hminus : (symbol .minus).tokens = [.symbol .minus] := rfl
      rw [← tokens_join hminus] at d
      simpa [segmentTypes] using d

theorem segmentSize_closed {size : Option (Located Expr)} (hf : ∀ l ∈ size, ReadsExpr false level l)
    (h : ∀ l ∈ size, isBare l.node = true → ReadsExpr b level l)
    (hcolon : next ≠ some (.symbol .colon))
    (hstring : ∀ s, next ≠ some (.string s)) :
    Derivation b .segmentSize (erase size) (unplaced (segmentSize level size).tokens) next := by
  cases size with
  | none => exact .segmentSizeNone hcolon
  | some l =>
      have hsize := ReadsExpr.single (hf l rfl) (h l rfl) hstring
      have d : Derivation b .segmentSize (erase (some l)) _ next :=
        .segmentSize (t := sym .colon) rfl hsize
      simpa using d

/-- What may stand behind the value or the size of a segment. -/
theorem firstOf_segmentTypes (types : List SegmentType) (hnext : ClosesSegment next) :
    firstOf (unplaced (segmentTypes types).tokens) next ≠ some (.symbol .colon) ∧
      ∀ s, firstOf (unplaced (segmentTypes types).tokens) next ≠ some (.string s) := by
  cases types with
  | nil => exact ⟨hnext.colon, hnext.string⟩
  | cons t types => simp [segmentTypes, symbol]

/-- The value of a segment, its size and its types. -/
theorem segment_closed {size : Option (Located Expr)} (types : List SegmentType)
    (hf : ReadsExpr false level l) (h : isBare l.node = true → ReadsExpr b level l)
    (hsf : ∀ l ∈ size, ReadsExpr false level l)
    (hs : ∀ l ∈ size, isBare l.node = true → ReadsExpr b level l) (hnext : ClosesSegment next) :
    Derivation b .segment (erase (⟨l, size, types⟩ : Segment))
      (unplaced (bare level l ++ segmentSize level size ++ segmentTypes types).tokens) next := by
  obtain ⟨hcolon, hstring⟩ := firstOf_segmentTypes types hnext
  have dsize := segmentSize_closed hsf hs hcolon hstring
  have hvalue : ∀ s, firstOf (unplaced (segmentSize level size).tokens)
      (firstOf (unplaced (segmentTypes types).tokens) next) ≠ some (.string s) := by
    cases size with
    | none => exact hstring
    | some l => simp
  have d : Derivation b .segment (erase (⟨l, size, types⟩ : Segment)) _ next :=
    .segment (.segmentValue (hf.single h hvalue)) dsize (segmentTypes_closed types hnext)
  simpa using d

theorem reads_binary {ss : List Segment}
    (h : Elements .segment b ClosesSegment (erase ss) ((segments level ss).map tokens)) :
    Reads b (.binary ss) (node level (.binary ss)).tokens := by
  refine .of_primary rfl fun next _ => ?_
  cases ss with
  | nil => exact .binaryNil (l := sym .lessLess) (r := sym .greaterGreater) rfl rfl
  | cons s ss =>
      have hlist := h.separated (s := .symbol .comma) (by simp) ⟨by simp, by simp, by simp, by simp⟩
        (⟨by simp, by simp, by simp, by simp⟩ :
          ClosesSegment (some (.symbol .greaterGreater))) (by simp)
      have d : Derivation b .primary (Expr.binary (s :: ss)).bare _ next :=
        .binaryLiteral (l := sym .lessLess) (r := sym .greaterGreater) rfl rfl hlist
      simpa using d

abbrev QualifiersRead (b : Bool) (level : Nat) (qs : List Qualifier) : Prop :=
  Elements .qualifier b (ClosesQualifier b) (erase qs) ((qualifiers level qs).map tokens)

theorem QualifiersRead.closed {qs : List Qualifier} {s : Symbol} (h : QualifiersRead b level qs)
    (hne : qs ≠ []) (hs : s ∉ [.leftParen, .hash, .colon, .comma, .leftArrow, .leftDoubleArrow])
    (hop : connective? (.symbol s) = none) :
    Derivation b .qualifiers (erase qs)
      (unplaced (between (.symbol .comma) ((qualifiers level qs).map tokens)))
      (some (.symbol s)) := by
  simp only [List.mem_cons, List.not_mem_nil, or_false, not_or] at hs
  obtain ⟨h₁, h₂, h₃, h₄, h₅, h₆⟩ := hs
  have hclose : ClosesQualifier b (some (.symbol s)) :=
    ⟨closes_symbol (by simp [h₁, h₂, h₃]) hop, by simp [h₅], by simp [h₆]⟩
  exact h.separated (erase_ne_nil hne) ⟨closes_symbol (by decide) rfl, by simp, by simp⟩ hclose
    (by simp [h₄])

theorem reads_listComp {qs : List Qualifier} (h : ReadsExpr b level l)
    (hqs : QualifiersRead b level qs) (hne : qs ≠ []) :
    Reads b (.listComp l qs) (node level (.listComp l qs)).tokens := by
  refine .of_primary rfl fun next _ => ?_
  have hexpr := h.closed (closes_symbol (s := .pipePipe) (by decide) rfl)
  have hlist := hqs.closed (s := .rightBracket) hne (by decide) rfl
  have d : Derivation b .primary (Expr.listComp l qs).bare _ next :=
    .listComp (l := sym .leftBracket) (p := sym .pipePipe) (r := sym .rightBracket) rfl rfl
      hexpr rfl hlist
  simpa using d

/-- A binary comprehension. Its template is one value, in parentheses if it is not a primary. -/
theorem reads_binaryComp {qs : List Qualifier} (hf : ReadsExpr false level l)
    (h : isBare l.node = true → ReadsExpr b level l) (hqs : QualifiersRead b level qs)
    (hne : qs ≠ []) :
    Reads b (.binaryComp l qs) (node level (.binaryComp l qs)).tokens := by
  refine .of_primary rfl fun next _ => ?_
  have hpipes : ClosesSegment (some (.symbol .pipePipe)) := ⟨by simp, by simp, by simp, by simp⟩
  have hsegment : Derivation b .segment (erase (⟨l, none, []⟩ : Segment)) _ _ :=
    segment_closed [] hf h (by simp) (by simp) hpipes
  have hlist := hqs.closed (s := .greaterGreater) hne (by decide) rfl
  have d : Derivation b .primary (Expr.binaryComp l qs).bare _ next :=
    .binaryComp (l := sym .lessLess) (p := sym .pipePipe) (r := sym .greaterGreater) rfl rfl
      hsegment rfl
      hlist
  simpa [segmentTypes] using d

/-! ### References and macros -/

theorem ReadsExpr.primary (h : ReadsExpr b level l) (hp : printsPrimary l.node = true)
    (hnext : Follows l.node next) :
    Derivation b .primary (erase l) (unplaced (expr level l).tokens) next := by
  rw [erase_eq_bare]
  exact Reads.primary h hp next hnext

theorem follows_arity {m : Option (Located Expr)} (h : Follows (.funRef m l r) next) :
    Follows r.node next :=
  ⟨h.string, h.arguments⟩

theorem reads_localReference {s : Span} {name : String} {a : Located Expr}
    (ha : ReadsExpr b level a) (hp : printsPrimary a.node = true) :
    Reads b (.funRef none ⟨.atom name, s⟩ a)
      (node level (.funRef none ⟨.atom name, s⟩ a)).tokens := by
  refine .of_primary rfl fun next hnext => ?_
  have darity := ha.primary hp (follows_arity hnext)
  obtain ⟨a, s'⟩ := a
  have d : Derivation b .primary (Expr.funRef none ⟨.atom name, s⟩ ⟨a, s'⟩).bare _ next :=
    .localReference (l := word .fun_) (f := (Token.atom name).unplaced) (s := sym .slash)
      rfl rfl rfl
      darity
  simpa [expr_mk] using d

theorem reads_remoteReference {m : Expr} {s : Span} {a : Located Expr} {t : Token}
    (ht : ∃ name, t = .atom name ∨ t = .var name) (hsimple : simple? t = some m)
    (hm : m.eraseParts = m) (htokens : (node level m).tokens = [t]) (hf : ReadsExpr b level l)
    (hfp : printsPrimary l.node = true) (ha : ReadsExpr b level a)
    (hap : printsPrimary a.node = true) :
    Reads b (.funRef (some ⟨m, s⟩) l a) (node level (.funRef (some ⟨m, s⟩) l a)).tokens := by
  refine .of_primary rfl fun next hnext => ?_
  have darity := ha.primary hap (follows_arity hnext)
  have dfunction := hf.primary hfp (follows_symbol (s := .slash) (by decide))
  have d : Derivation b .primary _ _ next :=
    .remoteReference (l := word .fun_) (m := t.unplaced) (c := sym .colon) (s := sym .slash) rfl ht
      hsimple rfl dfunction rfl darity
  rw [span_erase, span_unplaced, span_unplaced, nowhere_through_nowhere] at d
  have hbare : (Expr.funRef (some ⟨m, s⟩) l a).bare =
      ⟨.funRef (some ⟨m, .nowhere⟩) (erase l) (erase a), .nowhere⟩ := by
    have herase : erase (⟨m, s⟩ : Located Expr) = ⟨m, .nowhere⟩ := by rw [erase_expr, hm]
    rw [← herase]
    rfl
  have hlayout : (node level (.funRef (some ⟨m, s⟩) l a)).tokens =
      .keyword .fun_ :: t :: .symbol .colon :: ((expr level l).tokens ++
        .symbol .slash :: (expr level a).tokens) := by
    simp [expr_mk, htokens]
  rw [hbare, hlayout]
  simpa using d

/-- A reference to a function. Its module and its arity are primaries. -/
theorem reads_funRef {m : Option (Located Expr)} {a : Located Expr}
    (hshape : (Expr.funRef m l a).Shaped) (hf : ReadsExpr b level l)
    (hfp : printsPrimary l.node = true) (ha : ReadsExpr b level a)
    (hap : printsPrimary a.node = true) :
    Reads b (.funRef m l a) (node level (.funRef m l a)).tokens := by
  rcases m with _ | ⟨m, s⟩
  · obtain ⟨f, s⟩ := l
    cases f
    case atom name => exact reads_localReference ha hap
    all_goals cases hshape
  · cases m
    case atom name =>
      exact reads_remoteReference (t := .atom name) ⟨name, .inl rfl⟩ rfl rfl rfl hf hfp ha hap
    case var name =>
      exact reads_remoteReference (t := .var name) ⟨name, .inr rfl⟩ rfl rfl rfl hf hfp ha hap
    all_goals simp [Expr.Shaped, Expr.isAtom, Expr.isVar] at hshape

theorem tokens_macroName (name : String) :
    ∃ t : Token, (macroName name).tokens = [t] ∧ (t = .atom name ∨ t = .var name) := by
  unfold macroName
  split
  · split
    · exact ⟨.var name, rfl, .inr rfl⟩
    · exact ⟨.atom name, rfl, .inl rfl⟩
  · exact ⟨.atom name, rfl, .inl rfl⟩

theorem reads_macroName (name : String) :
    Reads b (.macroUse name none) (node level (.macroUse name none)).tokens := by
  refine .of_primary rfl fun next hnext => ?_
  obtain ⟨t, htokens, ht⟩ := tokens_macroName name
  have d : Derivation b .primary (Expr.macroUse name none).bare _ next :=
    .macroName (q := sym .question) (n := t.unplaced) rfl ht (hnext.arguments rfl)
  simpa [htokens] using d

/-- A macro with arguments. -/
theorem reads_macroCall (name : String) (h : ReadsEach false level args) :
    Reads b (.macroUse name (some args)) (node level (.macroUse name (some args))).tokens := by
  refine .of_primary rfl fun next _ => ?_
  obtain ⟨t, htokens, ht⟩ := tokens_macroName name
  have d : Derivation b .primary _ _ next :=
    .macroCall (q := sym .question) (n := t.unplaced) rfl ht h.arguments
  rw [span_unplaced, span_unplaced, lastSpan_unplaced] at d
  replace d : Derivation b .primary (Expr.macroUse name (some args)).bare _ next := d
  simpa [htokens] using d

end Printer

end ErlangFragment
