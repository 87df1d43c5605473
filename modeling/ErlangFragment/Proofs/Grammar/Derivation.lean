import ErlangFragment.Grammar.Expression
import ErlangFragment.Proofs.Grammar.Laws

/-! Relational semantics of the expression grammar, specified by local rules instead of by
execution. A derivation says which tokens make up a phrase, what the phrase means, and which token
may stand behind it. -/

namespace ErlangFragment.Grammar

/-- The parts that expressions are made of. -/
inductive Phrase
  | rule (nt : Nonterminal)
  /-- Operators and right operands behind `lhs`. -/
  | operations (minimum : Nat) (lhs : Located Expr) (afterComparison : Bool)
  /-- Calls, maps and records applied to `base`. -/
  | postfixes (base : Located Expr)
  | arguments
  | argPatterns
  /-- Further elements, each behind a separator. -/
  | more (separator : Token) (element : Phrase)
  | separated (separator : Token) (element : Phrase)
  | braced (field : Phrase)
  | part (word : Keyword) (separator : Token) (element : Phrase)
  | clauseRest (patterns : List (Located Expr))
  | caseClause
  | catchPatterns
  | catchClause
  | funClause (name : Option String)
  | ifClause
  | mapField
  | recordField
  | qualifier
  | segmentType
  | segmentValue
  | segmentSize
  | segmentTypes
  | segment
  | after

namespace Phrase

/-- What a phrase is read as. -/
@[reducible] def Result : Phrase → Type
  | rule _ | operations _ _ _ | postfixes _ | segmentValue => Located Expr
  | arguments | argPatterns | catchPatterns => List (Located Expr)
  | more _ p | separated _ p | braced p | part _ _ p => List p.Result
  | clauseRest _ => Clause
  | caseClause | catchClause | funClause _ | ifClause => Located Clause
  | mapField => MapField
  | recordField => RecordField
  | qualifier => Qualifier
  | segmentType => SegmentType
  | segmentSize => Option (Located Expr)
  | segmentTypes => List SegmentType
  | segment => Segment
  | after => Option After

abbrev expression : Phrase := rule .expression

abbrev binary (minimum : Nat) : Phrase := rule (.binary minimum)

abbrev unary : Phrase := rule .unary

abbrev primary : Phrase := rule .primary

abbrev exprs : Phrase := separated (.symbol .comma) expression

abbrev guardSequence : Phrase := separated (.symbol .semicolon) exprs

abbrev caseClauses : Phrase := separated (.symbol .semicolon) caseClause

abbrev funClauses (name : Option String) : Phrase := separated (.symbol .semicolon) (funClause name)

abbrev ifClauses : Phrase := separated (.symbol .semicolon) ifClause

abbrev qualifiers : Phrase := separated (.symbol .comma) qualifier

abbrev segments : Phrase := separated (.symbol .comma) segment

end Phrase

/-- Behind these tokens nothing more is applied. A colon stops there only where it separates. -/
def stopsPostfixes (colonSeparates : Bool) (next : Option Token) : Prop :=
  next ≠ some (.symbol .leftParen) ∧ next ≠ some (.symbol .hash) ∧
    (next = some (.symbol .colon) → colonSeparates = true)

/-- Behind these tokens no operator goes on that holds its left operand tightly enough. -/
def stopsOperations (minimum : Nat) (next : Option Token) : Prop :=
  ∀ op, next.bind connective? = some op → (connectivePower op).left < minimum

/-- The strings of a run of string tokens. -/
def StringRun (toks : List (Located Token)) (texts : List String) : Prop :=
  toks.map Located.node = texts.map .string

/-- A derivation of a phrase with its meaning, from its tokens and the token behind them. Each rule
consumes tokens as they stand in the text, and no rule invokes the parser. The flag tells whether a
colon separates the patterns of a catch clause. -/
inductive Derivation : Bool → (p : Phrase) → p.Result → List (Located Token) → Option Token → Prop
  where
  -- Lists
  | moreNil {b p s next} : next ≠ some s → Derivation b (.more s p) [] [] next
  | moreCons {b p s a as ts us next} {t : Located Token} : t.node = s →
      Derivation b p a ts (firstOf us next) → Derivation b (.more s p) as us next →
      Derivation b (.more s p) (a :: as) (t :: (ts ++ us)) next
  | separated {b p s a as ts us next} :
      Derivation b p a ts (firstOf us next) → Derivation b (.more s p) as us next →
      Derivation b (.separated s p) (a :: as) (ts ++ us) next
  | bracedNil {b p next} {l r : Located Token} :
      l.node = .symbol .leftBrace → r.node = .symbol .rightBrace →
      Derivation b (.braced p) [] [l, r] next
  | braced {b p as ts next} {l r : Located Token} :
      l.node = .symbol .leftBrace → r.node = .symbol .rightBrace →
      Derivation b (.separated (.symbol .comma) p) as ts (some r.node) →
      Derivation b (.braced p) as (l :: (ts ++ [r])) next
  | partNone {b w s p next} : next ≠ some (.keyword w) → Derivation b (.part w s p) [] [] next
  | partSome {b w s p as ts next} {t : Located Token} : t.node = .keyword w →
      Derivation b (.separated s p) as ts next → Derivation b (.part w s p) as (t :: ts) next
  -- Operators
  | catchExpr {b e ts next} {t : Located Token} : t.node = .keyword .catch_ →
      Derivation b .expression e ts next →
      Derivation b .expression ⟨.catchExpr e, t.span.through e.span⟩ (t :: ts) next
  | operators {b e ts next} : Derivation b (.binary 0) e ts next →
      Derivation b .expression e ts next
  | binary {b minimum lhs e ts us next} : Derivation b .unary lhs ts (firstOf us next) →
      Derivation b (.operations minimum lhs false) e us next →
      Derivation b (.binary minimum) e (ts ++ us) next
  | operationsNil {b minimum lhs comparison next} : stopsOperations minimum next →
      Derivation b (.operations minimum lhs comparison) lhs [] next
  | operationsCons {b minimum lhs comparison op rhs e ts us next} {t : Located Token} :
      connective? t.node = some op → minimum ≤ (connectivePower op).left →
      (isComparison op && comparison) = false →
      Derivation b (.binary (connectivePower op).right) rhs ts (firstOf us next) →
      Derivation b (.operations minimum (join lhs rhs op) (isComparison op)) e us next →
      Derivation b (.operations minimum lhs comparison) e (t :: (ts ++ us)) next
  | unaryOp {b op e ts next} {t : Located Token} : UnaryOp.ofToken? t.node = some op →
      Derivation b .unary e ts next →
      Derivation b .unary ⟨.unaryOp op e, t.span.through e.span⟩ (t :: ts) next
  | applied {b e e' ts us next} : Derivation b .primary e ts (firstOf us next) →
      Derivation b (.postfixes e) e' us next → Derivation b .unary e' (ts ++ us) next
  -- Calls, maps and records applied to something
  | postfixesNil {b e next} : stopsPostfixes b next → Derivation b (.postfixes e) e [] next
  | call {b e e' args ts us next} : Derivation b .arguments args ts (firstOf us next) →
      Derivation b (.postfixes ⟨.call e args, e.span.through (lastSpan e.span ts)⟩) e' us next →
      Derivation b (.postfixes e) e' (ts ++ us) next
  | remoteCall {b e f e' args ts us vs next} {t : Located Token} :
      b = false → t.node = .symbol .colon →
      Derivation b .primary f ts (firstOf us (firstOf vs next)) →
      Derivation b .arguments args us (firstOf vs next) →
      Derivation b
        (.postfixes ⟨.call ⟨.remote e f, e.span.through f.span⟩ args,
          (e.span.through f.span).through (lastSpan e.span us)⟩) e' vs next →
      Derivation b (.postfixes e) e' (t :: (ts ++ (us ++ vs))) next
  | mapUpdate {b e e' fs ts us next} {t : Located Token} : t.node = .symbol .hash →
      Derivation b (.braced .mapField) fs ts (firstOf us next) →
      Derivation b (.postfixes ⟨.map (some e) fs, e.span.through (lastSpan t.span ts)⟩) e' us next →
      Derivation b (.postfixes e) e' (t :: (ts ++ us)) next
  | recordUpdate {b e e' name fs ts us next} {t n : Located Token} :
      t.node = .symbol .hash → n.node = .atom name →
      Derivation b (.braced .recordField) fs ts (firstOf us next) →
      Derivation b (.postfixes ⟨.record (some e) name fs,
        e.span.through (lastSpan n.span ts)⟩) e' us
        next →
      Derivation b (.postfixes e) e' (t :: n :: (ts ++ us)) next
  | recordAccess {b e e' name field us next} {t n d f : Located Token} :
      t.node = .symbol .hash → n.node = .atom name →
      d.node = .symbol .dot → f.node = .atom field →
      Derivation b (.postfixes ⟨.recordAccess e name field, e.span.through f.span⟩) e' us next →
      Derivation b (.postfixes e) e' (t :: n :: d :: f :: us) next
  | argumentsNil {b next} {l r : Located Token} :
      l.node = .symbol .leftParen → r.node = .symbol .rightParen →
      Derivation b .arguments [] [l, r] next
  | arguments {b args ts next} {l r : Located Token} :
      l.node = .symbol .leftParen → r.node = .symbol .rightParen →
      Derivation false .exprs args ts (some r.node) →
      Derivation b .arguments args (l :: (ts ++ [r])) next
  -- Clauses
  | argPatternsNil {b next} {l r : Located Token} :
      l.node = .symbol .leftParen → r.node = .symbol .rightParen →
      Derivation b .argPatterns [] [l, r] next
  | argPatterns {b args ts next} {l r : Located Token} :
      l.node = .symbol .leftParen → r.node = .symbol .rightParen →
      Derivation b .exprs args ts (some r.node) →
      Derivation b .argPatterns args (l :: (ts ++ [r])) next
  | unguarded {b patterns body ts next} {a : Located Token} : a.node = .symbol .arrow →
      Derivation b .exprs body ts next →
      Derivation b (.clauseRest patterns) ⟨patterns, [], body⟩ (a :: ts) next
  | guarded {b patterns guards body ts us next} {w a : Located Token} : w.node = .keyword .when →
      Derivation b .guardSequence guards ts (some a.node) → a.node = .symbol .arrow →
      Derivation b .exprs body us next →
      Derivation b (.clauseRest patterns) ⟨patterns, guards, body⟩ (w :: (ts ++ a :: us)) next
  | caseClause {b pattern c ts us next} : Derivation b .expression pattern ts (firstOf us next) →
      Derivation b (.clauseRest [pattern]) c us next →
      Derivation b .caseClause ⟨c, extent (ts ++ us)⟩ (ts ++ us) next
  | reason {b e ts next} : Derivation b .expression e ts next → next ≠ some (.symbol .colon) →
      Derivation b .catchPatterns [⟨.atom "throw", e.span⟩, e, ⟨.var "_", e.span⟩] ts next
  | classReason {b e r ts us next} {t : Located Token} :
      Derivation b .expression e ts (some t.node) →
      t.node = .symbol .colon → Derivation b .expression r us next →
      next ≠ some (.symbol .colon) →
      Derivation b .catchPatterns [e, r, ⟨.var "_", r.span⟩] (ts ++ t :: us) next
  | classReasonStack {b e r s ts us vs next} {t u : Located Token} :
      Derivation b .expression e ts (some t.node) →
      t.node = .symbol .colon → Derivation b .expression r us (some u.node) →
      u.node = .symbol .colon → Derivation b .expression s vs next →
      Derivation b .catchPatterns [e, r, s] (ts ++ t :: (us ++ u :: vs)) next
  | catchClause {b patterns c ts us next} :
      Derivation true .catchPatterns patterns ts (firstOf us next) →
      Derivation b (.clauseRest patterns) c us next →
      Derivation b .catchClause ⟨c, extent (ts ++ us)⟩ (ts ++ us) next
  | funClause {b patterns c ts us next} : Derivation b .argPatterns patterns ts (firstOf us next) →
      Derivation b (.clauseRest patterns) c us next →
      Derivation b (.funClause none) ⟨c, extent (ts ++ us)⟩ (ts ++ us) next
  | namedFunClause {b name patterns c ts us next} {t : Located Token} : t.node = .var name →
      Derivation b .argPatterns patterns ts (firstOf us next) →
      Derivation b (.clauseRest patterns) c us next →
      Derivation b (.funClause (some name)) ⟨c, extent (t :: (ts ++ us))⟩ (t :: (ts ++ us)) next
  | ifClause {b guards body ts us next} {a : Located Token} :
      Derivation b .guardSequence guards ts (some a.node) →
      a.node = .symbol .arrow → Derivation b .exprs body us next →
      Derivation b .ifClause ⟨⟨[], guards, body⟩, extent (ts ++ a :: us)⟩ (ts ++ a :: us) next
  -- Fields, qualifiers and segments
  | assocField {b key value ts us next} {t : Located Token} :
      Derivation b .expression key ts (some t.node) →
      t.node = .symbol .fatArrow → Derivation b .expression value us next →
      Derivation b .mapField ⟨key, .assoc, value⟩ (ts ++ t :: us) next
  | exactField {b key value ts us next} {t : Located Token} :
      Derivation b .expression key ts (some t.node) →
      t.node = .symbol .colonEqual → Derivation b .expression value us next →
      Derivation b .mapField ⟨key, .exact, value⟩ (ts ++ t :: us) next
  | recordField {b name value ts next} {n t : Located Token} :
      n.node = .atom name ∨ n.node = .var name →
      t.node = .symbol .equal → Derivation b .expression value ts next →
      Derivation b .recordField ⟨⟨name, n.span⟩, value⟩ (n :: t :: ts) next
  | generator {b pattern source ts us next} {t : Located Token} :
      Derivation b .expression pattern ts (some t.node) →
      t.node = .symbol .leftArrow → Derivation b .expression source us next →
      Derivation b .qualifier (.generator pattern source) (ts ++ t :: us) next
  | binaryGenerator {b pattern source ts us next} {t : Located Token} :
      Derivation b .expression pattern ts (some t.node) →
      t.node = .symbol .leftDoubleArrow → Derivation b .expression source us next →
      Derivation b .qualifier (.binaryGenerator pattern source) (ts ++ t :: us) next
  | filter {b e ts next} : Derivation b .expression e ts next → next ≠ some (.symbol .leftArrow) →
      next ≠ some (.symbol .leftDoubleArrow) → Derivation b .qualifier (.filter e) ts next
  | segmentType {b name next} {t : Located Token} :
      t.node = .atom name → next ≠ some (.symbol .colon) →
      Derivation b .segmentType ⟨name, none⟩ [t] next
  | segmentTypeArg {b name n next} {t u v : Located Token} :
      t.node = .atom name → u.node = .symbol .colon →
      v.node = .integer (.small n) → Derivation b .segmentType ⟨name, some n⟩ [t, u, v] next
  | signedSegmentValue {b op e ts next} {t : Located Token} : UnaryOp.ofToken? t.node = some op →
      Derivation b .primary e ts next →
      Derivation b .segmentValue ⟨.unaryOp op e, t.span.through e.span⟩ (t :: ts) next
  | segmentValue {b e ts next} : Derivation b .primary e ts next →
      Derivation b .segmentValue e ts next
  | segmentSizeNone {b next} : next ≠ some (.symbol .colon) →
      Derivation b .segmentSize none [] next
  | segmentSize {b e ts next} {t : Located Token} :
      t.node = .symbol .colon → Derivation b .primary e ts next →
      Derivation b .segmentSize (some e) (t :: ts) next
  | segmentTypesNil {b next} : next ≠ some (.symbol .slash) → Derivation b .segmentTypes [] [] next
  | segmentTypes {b types ts next} {t : Located Token} : t.node = .symbol .slash →
      Derivation b (.separated (.symbol .minus) .segmentType) types ts next →
      Derivation b .segmentTypes types (t :: ts) next
  | segment {b value size types ts us vs next} :
      Derivation b .segmentValue value ts (firstOf us (firstOf vs next)) →
      Derivation b .segmentSize size us (firstOf vs next) →
      Derivation b .segmentTypes types vs next →
      Derivation b .segment ⟨value, size, types⟩ (ts ++ (us ++ vs)) next
  | noAfter {b next} : next ≠ some (.keyword .after) → Derivation b .after none [] next
  | after {b timeout body ts us next} {t a : Located Token} : t.node = .keyword .after →
      Derivation b .expression timeout ts (some a.node) → a.node = .symbol .arrow →
      Derivation b .exprs body us next →
      Derivation b .after (some ⟨timeout, body⟩) (t :: (ts ++ a :: us)) next
  -- Primaries
  | simple {b e next} {t : Located Token} :
      simple? t.node = some e → Derivation b .primary ⟨e, t.span⟩ [t] next
  | strings {b texts ts next} : ts ≠ [] → StringRun ts texts → (∀ s, next ≠ some (.string s)) →
      Derivation b .primary ⟨.string (texts.foldr (· ++ ·) ""), extent ts⟩ ts next
  | parenthesized {b e ts next} {l r : Located Token} :
      l.node = .symbol .leftParen → r.node = .symbol .rightParen →
      Derivation false .expression e ts (some r.node) →
      Derivation b .primary e (l :: (ts ++ [r])) next
  | tupleNil {b next} {l r : Located Token} :
      l.node = .symbol .leftBrace → r.node = .symbol .rightBrace →
      Derivation b .primary ⟨.tuple [], l.span.through r.span⟩ [l, r] next
  | tuple {b es ts next} {l r : Located Token} :
      l.node = .symbol .leftBrace → r.node = .symbol .rightBrace →
      Derivation b .exprs es ts (some r.node) →
      Derivation b .primary ⟨.tuple es, l.span.through r.span⟩ (l :: (ts ++ [r])) next
  | listNil {b next} {l r : Located Token} :
      l.node = .symbol .leftBracket → r.node = .symbol .rightBracket →
      Derivation b .primary ⟨.list [] none, l.span.through r.span⟩ [l, r] next
  | list {b es ts next} {l r : Located Token} :
      l.node = .symbol .leftBracket → r.node = .symbol .rightBracket →
      Derivation b .exprs es ts (some r.node) →
      Derivation b .primary ⟨.list es none, l.span.through r.span⟩ (l :: (ts ++ [r])) next
  | listTail {b es tail ts us next} {l p r : Located Token} : l.node = .symbol .leftBracket →
      r.node = .symbol .rightBracket → Derivation b .exprs es ts (some p.node) →
      p.node = .symbol .pipe → Derivation b .expression tail us (some r.node) →
      Derivation b .primary ⟨.list es (some tail), l.span.through r.span⟩
        (l :: (ts ++ p :: (us ++ [r]))) next
  | listComp {b e qs ts us next} {l p r : Located Token} : l.node = .symbol .leftBracket →
      r.node = .symbol .rightBracket → Derivation b .expression e ts (some p.node) →
      p.node = .symbol .pipePipe → Derivation b .qualifiers qs us (some r.node) →
      Derivation b .primary ⟨.listComp e qs, l.span.through r.span⟩
        (l :: (ts ++ p :: (us ++ [r]))) next
  | binaryNil {b next} {l r : Located Token} :
      l.node = .symbol .lessLess → r.node = .symbol .greaterGreater →
      Derivation b .primary ⟨.binary [], l.span.through r.span⟩ [l, r] next
  | binaryLiteral {b ss ts next} {l r : Located Token} :
      l.node = .symbol .lessLess → r.node = .symbol .greaterGreater →
      Derivation b .segments ss ts (some r.node) →
      Derivation b .primary ⟨.binary ss, l.span.through r.span⟩ (l :: (ts ++ [r])) next
  | binaryComp {b e qs ts us next} {l p r : Located Token} : l.node = .symbol .lessLess →
      r.node = .symbol .greaterGreater → Derivation b .segment ⟨e, none, []⟩ ts (some p.node) →
      p.node = .symbol .pipePipe → Derivation b .qualifiers qs us (some r.node) →
      Derivation b .primary ⟨.binaryComp e qs, l.span.through r.span⟩
        (l :: (ts ++ p :: (us ++ [r]))) next
  | map {b fs ts next} {t : Located Token} :
      t.node = .symbol .hash → Derivation b (.braced .mapField) fs ts next →
      Derivation b .primary ⟨.map none fs, t.span.through (lastSpan t.span ts)⟩ (t :: ts) next
  | record {b name fs ts next} {t n : Located Token} :
      t.node = .symbol .hash → n.node = .atom name →
      Derivation b (.braced .recordField) fs ts next →
      Derivation b .primary ⟨.record none name fs, t.span.through (lastSpan n.span ts)⟩
        (t :: n :: ts)
        next
  | recordIndex {b name field next} {t n d f : Located Token} :
      t.node = .symbol .hash → n.node = .atom name →
      d.node = .symbol .dot → f.node = .atom field →
      Derivation b .primary ⟨.recordIndex name field, t.span.through f.span⟩ [t, n, d, f] next
  | block {b es ts next} {l r : Located Token} :
      l.node = .keyword .begin → r.node = .keyword .end_ →
      Derivation b .exprs es ts (some r.node) →
      Derivation b .primary ⟨.block es, l.span.through r.span⟩ (l :: (ts ++ [r])) next
  | caseExpr {b e cs ts us next} {l o r : Located Token} :
      l.node = .keyword .case → r.node = .keyword .end_ →
      Derivation b .expression e ts (some o.node) → o.node = .keyword .of →
      Derivation b .caseClauses cs us (some r.node) →
      Derivation b .primary ⟨.caseExpr e cs, l.span.through r.span⟩
        (l :: (ts ++ o :: (us ++ [r]))) next
  | ifExpr {b cs ts next} {l r : Located Token} : l.node = .keyword .if_ → r.node = .keyword .end_ →
      Derivation b .ifClauses cs ts (some r.node) →
      Derivation b .primary ⟨.ifExpr cs, l.span.through r.span⟩ (l :: (ts ++ [r])) next
  | receiveAfter {b a ts next} {l r : Located Token} :
      l.node = .keyword .receive → r.node = .keyword .end_ →
      Derivation b .after (some a) ts (some r.node) →
      Derivation b .primary ⟨.receiveExpr [] (some a), l.span.through r.span⟩
        (l :: (ts ++ [r])) next
  | receiveExpr {b cs a ts us next} {l r : Located Token} :
      l.node = .keyword .receive → r.node = .keyword .end_ →
      Derivation b .caseClauses cs ts (firstOf us (some r.node)) →
      Derivation b .after a us (some r.node) →
      Derivation b .primary ⟨.receiveExpr cs a, l.span.through r.span⟩
        (l :: (ts ++ (us ++ [r]))) next
  | tryExpr {b body os cs after ts us vs ws next} {l r : Located Token} : l.node = .keyword .try_ →
      r.node = .keyword .end_ →
      Derivation b .exprs body ts (firstOf us (firstOf vs (firstOf ws (some r.node)))) →
      Derivation b (.part .of (.symbol .semicolon) .caseClause) os us
        (firstOf vs (firstOf ws (some r.node))) →
      Derivation b (.part .catch_ (.symbol .semicolon) .catchClause) cs vs
        (firstOf ws (some r.node)) →
      Derivation b (.part .after (.symbol .comma) .expression) after ws (some r.node) →
      (cs ≠ [] ∨ after ≠ []) →
      Derivation b .primary ⟨.tryExpr body os cs after, l.span.through r.span⟩
        (l :: (ts ++ (us ++ (vs ++ (ws ++ [r]))))) next
  | funExpr {b cs ts next} {l r : Located Token} :
      l.node = .keyword .fun_ → r.node = .keyword .end_ →
      Derivation b (.funClauses none) cs ts (some r.node) →
      Derivation b .primary ⟨.funExpr none cs, l.span.through r.span⟩ (l :: (ts ++ [r])) next
  | namedFun {b name cs ts next} {l r : Located Token} :
      l.node = .keyword .fun_ → r.node = .keyword .end_ →
      Derivation b (.funClauses (some name)) cs ts (some r.node) →
      Derivation b .primary ⟨.funExpr (some name) cs, l.span.through r.span⟩ (l :: (ts ++ [r])) next
  | localReference {b name arity ts next} {l f s : Located Token} :
      l.node = .keyword .fun_ → f.node = .atom name →
      s.node = .symbol .slash → Derivation b .primary arity ts next →
      Derivation b .primary
        ⟨.funRef none ⟨.atom name, f.span⟩ arity, l.span.through arity.span⟩
        (l :: f :: s :: ts) next
  | remoteReference {b module function arity ts us next} {l m c s : Located Token} :
      l.node = .keyword .fun_ →
      (∃ name, m.node = .atom name ∨ m.node = .var name) → simple? m.node = some module →
      c.node = .symbol .colon → Derivation b .primary function ts (some s.node) →
      s.node = .symbol .slash → Derivation b .primary arity us next →
      Derivation b .primary
        ⟨.funRef (some ⟨module, m.span⟩) function arity, l.span.through arity.span⟩
        (l :: m :: c :: (ts ++ s :: us)) next
  | macroName {b name next} {q n : Located Token} :
      q.node = .symbol .question → n.node = .atom name ∨ n.node = .var name →
      next ≠ some (.symbol .leftParen) →
      Derivation b .primary ⟨.macroUse name none, q.span.through n.span⟩ [q, n] next
  | macroCall {b name args ts next} {q n : Located Token} : q.node = .symbol .question →
      n.node = .atom name ∨ n.node = .var name → Derivation b .arguments args ts next →
      Derivation b .primary ⟨.macroUse name (some args), q.span.through (lastSpan n.span ts)⟩
        (q :: n :: ts) next

/-! ### Names -/

section

open ErlangFragment.Parser ErlangFragment.Reader

variable {m : Mode} {c c' : Cursor}

/-- The name of a field is an atom or a variable. -/
theorem fieldName_eq_ok {r : Located String} :
    (fieldName : Parser (Located String)) m c = .ok (r, c') ↔
      ∃ u, (u.node = .atom r.node ∨ u.node = .var r.node) ∧ r.span = u.span ∧ c.Passes [u] c' := by
  rw [fieldName, next?_bind]
  constructor
  · intro h
    rcases hn : c.rest.head? with _ | ⟨t, span⟩ <;> rw [hn] at h
    · exact absurd h unexpected_ne_ok
    · cases t
      case atom name =>
        obtain ⟨c₁, hp⟩ := Cursor.passes_head hn
        simp only [advance_bind hp, pure_eq_ok] at h
        obtain ⟨rfl, rfl⟩ := h
        exact ⟨_, .inl rfl, rfl, hp⟩
      case var name =>
        obtain ⟨c₁, hp⟩ := Cursor.passes_head hn
        simp only [advance_bind hp, pure_eq_ok] at h
        obtain ⟨rfl, rfl⟩ := h
        exact ⟨_, .inr rfl, rfl, hp⟩
      all_goals exact absurd h unexpected_ne_ok
  · rintro ⟨⟨t, span⟩, ht, hs, hp⟩
    obtain ⟨name, _⟩ := r
    subst hs
    rw [hp.rest]
    rcases ht with rfl | rfl
    all_goals exact (advance_bind hp).trans (pure_eq_ok.mpr ⟨rfl, rfl⟩)

/-- The name of a macro is an atom or a variable. -/
theorem macroName_eq_ok {name : String} :
    (macroName : Parser String) m c = .ok (name, c') ↔
      ∃ u, (u.node = .atom name ∨ u.node = .var name) ∧ c.Passes [u] c' := by
  rw [macroName, peek?_bind]
  constructor
  · intro h
    rcases hn : c.next with _ | t <;> rw [hn] at h
    · exact absurd h unexpected_ne_ok
    · obtain ⟨u, c₁, rfl, hp⟩ := Cursor.next_eq_some_iff.mp hn
      obtain ⟨t, span⟩ := u
      cases t
      case atom name =>
        simp only [advance_bind hp, pure_eq_ok] at h
        obtain ⟨rfl, rfl⟩ := h
        exact ⟨_, .inl rfl, hp⟩
      case var name =>
        simp only [advance_bind hp, pure_eq_ok] at h
        obtain ⟨rfl, rfl⟩ := h
        exact ⟨_, .inr rfl, hp⟩
      all_goals exact absurd h unexpected_ne_ok
  · rintro ⟨⟨t, span⟩, ht, hp⟩
    rw [hp.next_token]
    rcases ht with rfl | rfl
    all_goals exact (advance_bind hp).trans (pure_eq_ok.mpr ⟨rfl, rfl⟩)

theorem segmentTypeArg_eq_ok {name : String} {r : SegmentType × Cursor} :
    (do
      match ← peek? with
      | some (.integer (.small n)) =>
        advance
        return ⟨name, some n⟩
      | _ => unexpected .integer : Parser SegmentType) m c = .ok r ↔
      ∃ n u c₁, u.node = .integer (.small n) ∧ c.Passes [u] c₁ ∧ r = (⟨name, some n⟩, c₁) := by
  rw [peek?_bind]
  constructor
  · intro h
    rcases hn : c.next with _ | t <;> rw [hn] at h
    · exact absurd h unexpected_ne_ok
    · obtain ⟨u, c₁, rfl, hp⟩ := Cursor.next_eq_some_iff.mp hn
      rcases ht : u.node with _ | ⟨n | _⟩ | _ | _ | _ | _ | _ | _ | _ | _ <;> rw [ht] at h
      case integer.small =>
        obtain ⟨_, _⟩ := r
        simp only [advance_bind hp, pure_eq_ok] at h
        obtain ⟨rfl, rfl⟩ := h
        exact ⟨n, u, _, ht, hp, rfl⟩
      all_goals exact absurd h unexpected_ne_ok
  · rintro ⟨n, u, c₁, hu, hp, rfl⟩
    rw [hp.next_token, hu]
    exact (advance_bind hp).trans (pure_eq_ok.mpr ⟨rfl, rfl⟩)

/-- A reference without a module begins with an atom. -/
theorem funKind?_localReference {first second : Option Token}
    (h : funKind? (first, second) = some .localReference) : ∃ name, first = some (.atom name) := by
  unfold funKind? at h
  split at h <;> simp_all

theorem funKind?_remoteReference {first second : Option Token}
    (h : funKind? (first, second) = some .remoteReference) :
    ∃ name, first = some (.atom name) ∨ first = some (.var name) := by
  unfold funKind? at h
  split at h <;> simp_all

/-! ### Brackets and runs of strings -/

/-- What is enclosed is read between the two tokens, and its span reaches over them. -/
theorem enclosed_eq_ok {opening closing : Token} {p : Parser Expr} {r : Located Expr} :
    enclosed opening closing p m c = .ok (r, c') ↔
      ∃ l c₁ c₂ u, l.node = opening ∧ c.Passes [l] c₁ ∧ p m c₁ = .ok (r.node, c₂) ∧
        u.node = closing ∧ c₂.Passes [u] c' ∧ r.span = l.span.through u.span := by
  rw [enclosed, expect_bind_eq_ok]
  constructor
  · rintro ⟨l, c₁, hl, pl, h⟩
    simp only [bind_eq_ok, expect_eq_ok, pure_eq_ok] at h
    obtain ⟨e, c₂, he, _, _, ⟨u, hu, rfl, pu⟩, rfl, rfl⟩ := h
    exact ⟨l, c₁, c₂, u, hl, pl, he, hu, pu, rfl⟩
  · rintro ⟨l, c₁, c₂, u, hl, pl, he, hu, pu, hs⟩
    refine ⟨l, c₁, hl, pl, ?_⟩
    simp only [bind_eq_ok, expect_eq_ok, pure_eq_ok]
    exact ⟨r.node, c₂, he, u.span, c', ⟨u, hu, rfl, pu⟩, by rw [← hs], rfl⟩

theorem stringTexts_of_string {n : Nat} {t : Located Token} {s : String} (ht : t.node = .string s)
    (hp : c.Passes [t] c') :
    (stringTexts (n + 1) : Parser String) m c =
      (do
        let texts ← stringTexts n
        return s ++ texts : Parser String) m c' := by
  rw [stringTexts, peek?_bind, hp.next_token, ht]
  exact advance_bind hp

/-- No string next, no text. -/
theorem stringTexts_of_other {n : Nat} (hn : c.rest.length ≤ n)
    (hs : ∀ s, c.next ≠ some (.string s)) : (stringTexts n : Parser String) m c = .ok ("", c) := by
  cases n with
  | zero => rfl
  | succ n =>
      rw [stringTexts, peek?_bind]
      rcases hnext : c.next with _ | k
      · rfl
      · cases k with
        | string s => exact absurd hnext (hs s)
        | _ => rfl

/-- Adjacent strings are read up to the last one, and their texts are joined. -/
theorem stringTexts_eq_ok {text : String} :
    (bounded stringTexts : Parser String) m c = .ok (text, c') ↔
      ∃ toks texts, c.Passes toks c' ∧ StringRun toks texts ∧ (∀ s, c'.next ≠ some (.string s)) ∧
        text = texts.foldr (· ++ ·) "" := by
  rw [bounded_apply]
  generalize hn : c.rest.length = n
  replace hn := Nat.le_of_eq hn
  constructor
  · intro h
    induction n generalizing c text with
    | zero =>
        have hend : c.rest = [] := List.length_eq_zero_iff.mp (Nat.le_zero.mp hn)
        obtain ⟨rfl, rfl⟩ := pure_eq_ok.mp h
        exact ⟨[], [], .refl _, rfl, by simp [Cursor.next, hend], rfl⟩
    | succ n ih =>
        by_cases hs : ∃ s, c.next = some (.string s)
        · obtain ⟨s, hs⟩ := hs
          obtain ⟨t, c₁, ht, hp⟩ := Cursor.next_eq_some_iff.mp hs
          rw [stringTexts_of_string ht hp] at h
          simp only [bind_eq_ok, pure_eq_ok] at h
          obtain ⟨text', c₂, h, rfl, rfl⟩ := h
          have hlength := hp.rest_lt
          obtain ⟨toks, texts, hps, hr, hno, rfl⟩ := ih (by omega) h
          exact ⟨t :: toks, s :: texts, hp.cons hps, by simpa [StringRun, ht] using hr, hno, rfl⟩
        · have hno : ∀ s, c.next ≠ some (.string s) := fun s hs' => hs ⟨s, hs'⟩
          rw [stringTexts_of_other hn hno] at h
          cases h
          exact ⟨[], [], .refl _, rfl, hno, rfl⟩
  · rintro ⟨toks, texts, hp, hr, hno, rfl⟩
    induction toks generalizing c n texts with
    | nil =>
        obtain rfl : texts = [] := by simpa [StringRun] using hr.symm
        obtain rfl := hp.eq_of_nil
        exact stringTexts_of_other hn hno
    | cons t toks ih =>
        obtain _ | ⟨s, texts⟩ := texts
        · simp [StringRun] at hr
        obtain ⟨ht, hr⟩ : t.node = .string s ∧ StringRun toks texts := by simpa [StringRun] using hr
        obtain ⟨c₁, pt, hp⟩ := hp.split_cons
        have hlength := pt.rest_lt
        obtain ⟨n, rfl⟩ : ∃ k, n = k + 1 := ⟨n - 1, by omega⟩
        rw [stringTexts_of_string ht pt]
        simp only [bind_eq_ok, pure_eq_ok]
        exact ⟨_, c', ih n (by omega) texts hp hr, rfl, rfl⟩

end

theorem Derivation.clauseRest_ne_nil {b : Bool} {patterns : List (Located Expr)} {c : Clause}
    {toks : List (Located Token)} {next : Option Token}
    (d : Derivation b (.clauseRest patterns) c toks next) : toks ≠ [] := by
  cases d <;> simp

theorem Derivation.arguments_ne_nil {b : Bool} {args : List (Located Expr)}
    {toks : List (Located Token)} {next : Option Token}
    (d : Derivation b .arguments args toks next) : toks ≠ [] := by
  cases d <;> simp

/-- A primary that starts with a token which is an expression is that token alone. -/
theorem Derivation.eq_of_simple {b : Bool} {e : Located Expr} {ts : List (Located Token)}
    {next : Option Token} {k : Token} {x : Expr} (d : Derivation b .primary e ts next)
    (hk : firstOf ts next = some k) (hx : simple? k = some x) :
    ∃ t, ts = [t] ∧ t.node = k ∧ e = ⟨x, t.span⟩ := by
  cases d with
  | simple h => simp_all
  | @strings _ texts _ _ hne hrun =>
      cases ts <;> cases texts <;> simp_all [StringRun, simple?]
  | _ =>
      simp only [firstOf_cons, Option.some.injEq] at hk
      simp_all [simple?]

/-! ### Phrases without tokens, and phrases with nothing applied -/

namespace Derivation

variable {b : Bool} {next : Option Token} {ts : List (Located Token)} {e e' : Located Expr}

theorem postfixes_nil (d : Derivation b (.postfixes e) e' [] next) : e' = e := by
  generalize hts : ([] : List (Located Token)) = ts at d
  cases d with
  | postfixesNil _ => rfl
  | call da _ => exact absurd (List.append_eq_nil_iff.mp hts.symm).1 da.arguments_ne_nil
  | _ => cases hts

theorem operations_nil {minimum : Nat} {comparison : Bool}
    (d : Derivation b (.operations minimum e comparison) e' [] next) : e' = e := by
  cases d
  rfl

/-- A primary is an operand, where nothing next could go on with it. -/
theorem unary_of_primary (d : Derivation b .primary e ts next) (h : stopsPostfixes b next) :
    Derivation b .unary e ts next := by
  rw [← List.append_nil ts]
  exact .applied d (.postfixesNil h)

/-- An operand is a whole operation, where no operator next could go on with it. -/
theorem binary_of_unary {minimum : Nat} (d : Derivation b .unary e ts next)
    (h : stopsOperations minimum next) : Derivation b (.binary minimum) e ts next := by
  rw [← List.append_nil ts]
  exact .binary d (.operationsNil h)

/-- One expression is a sequence, where no comma is next. -/
theorem exprs_singleton (d : Derivation b .expression e ts next)
    (h : next ≠ some (.symbol .comma)) : Derivation b .exprs [e] ts next := by
  rw [← List.append_nil ts]
  exact .separated d (.moreNil h)

end Derivation

end ErlangFragment.Grammar
