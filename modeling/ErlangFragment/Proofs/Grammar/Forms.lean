import Mathlib.Data.List.Forall2
import ErlangFragment.Proofs.Grammar.Correctness

/-! Relational semantics of forms. A form is read from exactly the tokens in front of its terminator
that it is derived from, and the forms of a token sequence are those of its parts. -/

namespace ErlangFragment.Grammar

open ErlangFragment.Parser ErlangFragment.Reader

/-! ### Derivations -/

/-- The name that an attribute has by this token. -/
def attributeName? : Token → Option String
  | .atom name => some name
  | t => if isKeyword t.text then some t.text else none

/-- A clause of a function, with its name. -/
inductive FunctionClause : Located String → Located Clause → List (Located Token) →
    Option Token → Prop
  | intro {name ps c ts us next} {n : Located Token} : n.node = .atom name →
      Derivation false .argPatterns ps ts (firstOf us next) →
      Derivation false (.clauseRest ps) c us next →
      FunctionClause ⟨name, n.span⟩ ⟨c, n.span.through (lastSpan n.span (ts ++ us))⟩
        (n :: (ts ++ us)) next

/-- Further clauses up to the terminator, all of them with the name and arity of the first one. -/
inductive FurtherClauses (first : String × Nat) :
    List (Located Clause) → List (Located Token) → Prop
  | nil : FurtherClauses first [] []
  | cons {name c cs ts us} {s : Located Token} : s.node = .symbol .semicolon →
      FunctionClause name c ts (firstOf us (some .terminator)) →
      (name.node, c.node.patterns.length) = first → FurtherClauses first cs us →
      FurtherClauses first (c :: cs) (s :: (ts ++ us))

/-- A form and its tokens without the terminator. -/
inductive FormDerivation : Located Form → List (Located Token) → Prop
  | function {name first cs ts us} : FunctionClause name first ts (firstOf us (some .terminator)) →
      FurtherClauses (name.node, first.node.patterns.length) cs us →
      FormDerivation
        ⟨.function name first.node.patterns.length (first :: cs),
          name.span.through (lastSpan name.span (ts ++ us))⟩ (ts ++ us)
  | tokens {name ts} {m n : Located Token} : m.node = .symbol .minus →
      attributeName? n.node = some name → name ∈ rawAttributes → (∀ t ∈ ts, t.node ≠ .terminator) →
      FormDerivation
        ⟨.attribute ⟨name, n.span⟩ (.tokens (ts.map Located.node)),
          m.span.through (lastSpan n.span ts)⟩
        (m :: n :: ts)
  | plain {name} {m n : Located Token} : m.node = .symbol .minus →
      attributeName? n.node = some name → name ∉ rawAttributes →
      FormDerivation ⟨.attribute ⟨name, n.span⟩ (.exprs []), m.span.through n.span⟩ [m, n]
  | noArgs {name} {m n l r : Located Token} : m.node = .symbol .minus →
      attributeName? n.node = some name → name ∉ rawAttributes →
      l.node = .symbol .leftParen → r.node = .symbol .rightParen →
      FormDerivation ⟨.attribute ⟨name, n.span⟩ (.exprs []), m.span.through r.span⟩ [m, n, l, r]
  | args {name es ts} {m n l r : Located Token} : m.node = .symbol .minus →
      attributeName? n.node = some name → name ∉ rawAttributes →
      l.node = .symbol .leftParen → Derivation false .exprs es ts (some r.node) →
      r.node = .symbol .rightParen →
      FormDerivation ⟨.attribute ⟨name, n.span⟩ (.exprs es), m.span.through r.span⟩
        (m :: n :: l :: (ts ++ [r]))

section

variable {m : Mode} {c c' : Cursor}

/-! ### Functions -/

/-- A clause of a function is read exactly if it is derived. -/
theorem functionClause_eq_ok {n : Nat} {name : Located String} {clause : Located Clause}
    (hm : m.colonSeparates = false) (hn : c.rest.length ≤ n) :
    (functionClause (within n) : Parser (Located String × Located Clause)) m c =
      .ok ((name, clause), c') ↔
      ∃ toks, c.Passes toks c' ∧ FunctionClause name clause toks c'.next := by
  simp only [functionClause, bind_eq_ok, previous_bind, pure_eq_ok]
  constructor
  · rintro ⟨a, c₁, ha, ps, c₂, hps, cl, c₃, hcl, heq, rfl⟩
    obtain ⟨u, hu, hs, pu⟩ := expectAtom_eq_ok.mp ha
    obtain ⟨ts, hts, dps⟩ := argPatterns_sound (within_sound n) hps
    obtain ⟨us, hus, dcl⟩ := clauseRest_sound (within_sound n) ps hcl
    rw [hm] at dps dcl
    rw [hus.next_eq] at dps
    have hprev : c'.previous = lastSpan u.span (ts ++ us) := by
      rw [hus.previous, hts.previous, pu.previous_token, lastSpan_append]
    obtain ⟨name', s⟩ := a
    obtain ⟨rfl, rfl⟩ := Prod.mk.inj heq
    simp only at hs
    subst hs
    rw [hprev]
    exact ⟨_, pu.cons (hts.trans hus), .intro hu dps dcl⟩
  · rintro ⟨toks, hp, d⟩
    obtain ⟨hu, dps, dcl⟩ := d
    rename_i name ps cl ts us u
    obtain ⟨c₁, pu, hp'⟩ := hp.split_cons
    obtain ⟨c₂, hts, hus⟩ := hp'.split_append
    have hlen : c.rest.length = 1 + (ts.length + us.length + c'.rest.length) := by
      rw [hp.length_eq]
      simp
      omega
    rw [← hm] at dps dcl
    rw [← hus.next_eq] at dps
    have hprev : c'.previous = lastSpan u.span (ts ++ us) := by
      rw [hus.previous, hts.previous, pu.previous_token, lastSpan_append]
    refine ⟨⟨name, u.span⟩, c₁, expectAtom_eq_ok.mpr ⟨u, hu, rfl, pu⟩, ps, c₂, ?_, cl, c',
      ?_, ?_, rfl⟩
    · exact argPatterns_complete (within_complete n) dps hts (by omega)
    · exact clauseRest_complete (within_complete n) ps dcl hus (by omega)
    · rw [hprev]

/-- A further clause has the name and the arity of the first one. -/
theorem sameFunctionClause_eq_ok {rules : Rules Parser} {first : String × Nat}
    {clause : Located Clause} :
    sameFunctionClause rules first m c = .ok (clause, c') ↔
      ∃ name : Located String, functionClause rules m c = .ok ((name, clause), c') ∧
        (name.node, clause.node.patterns.length) = first := by
  simp only [sameFunctionClause, bind_eq_ok]
  constructor
  · rintro ⟨⟨name, cl⟩, c₁, h, hrest⟩
    split at hrest
    · obtain ⟨_, _, hfail, -⟩ := bind_eq_ok.mp hrest
      exact absurd hfail fail_ne_ok
    · next hfirst =>
      obtain ⟨rfl, rfl⟩ := pure_eq_ok.mp hrest
      exact ⟨name, h, by simpa using hfirst⟩
  · rintro ⟨name, h, hfirst⟩
    refine ⟨_, _, h, ?_⟩
    simp only [hfirst, ne_eq, not_true_eq_false, if_false]
    exact pure_eq_ok.mpr ⟨rfl, rfl⟩

/-- The loop over further clauses reads exactly what is derived. -/
theorem furtherClauses_eq_ok {n k : Nat} {first : String × Nat} {cs : List (Located Clause)}
    (hm : m.colonSeparates = false) (hn : c.rest.length ≤ n) (hk : c.rest.length ≤ k)
    (hnext : c'.next = some .terminator) :
    more (.symbol .semicolon) (sameFunctionClause (within n) first) k m c = .ok (cs, c') ↔
      ∃ toks, c.Passes toks c' ∧ FurtherClauses first cs toks := by
  induction k generalizing c cs with
  | zero =>
      constructor
      · intro h
        obtain ⟨-, rfl⟩ := pure_eq_ok.mp h
        rw [Cursor.next_eq_none hk] at hnext
        cases hnext
      · rintro ⟨toks, hp, -⟩
        rw [Cursor.next_eq_none (Nat.le_trans hp.rest_le hk)] at hnext
        cases hnext
  | succ k ih =>
      rw [more, eat_bind_eq_ok]
      simp only [bind_eq_ok, pure_eq_ok]
      constructor
      · rintro (⟨t, c₁, ht, pt, a, c₂, ha, as, c₃, has, rfl, rfl⟩ | ⟨-, rfl, rfl⟩)
        · have hlen := pt.rest_lt
          obtain ⟨name, ha, hfirst⟩ := sameFunctionClause_eq_ok.mp ha
          obtain ⟨ts, hts, d⟩ := (functionClause_eq_ok hm (by omega)).mp ha
          have hlen₂ := hts.length_eq
          obtain ⟨us, hus, dmore⟩ := (ih (by omega) (by omega)).mp has
          rw [hus.next_eq, hnext] at d
          exact ⟨_, pt.cons (hts.trans hus), .cons ht d hfirst dmore⟩
        · exact ⟨[], .refl _, .nil⟩
      · rintro ⟨toks, hp, d⟩
        cases d with
        | nil =>
            obtain rfl := hp.eq_of_nil
            exact .inr ⟨by simp [hnext], rfl, rfl⟩
        | @cons name cl cs ts us s hs d hfirst dmore =>
            obtain ⟨c₁, ps, hp⟩ := hp.split_cons
            obtain ⟨c₂, hts, hus⟩ := hp.split_append
            have hlen := ps.rest_lt
            have hlen₂ := hts.length_eq
            rw [← hnext, ← hus.next_eq] at d
            refine .inl ⟨s, c₁, hs, ps, cl, c₂, ?_, cs, c', ?_, rfl, rfl⟩
            · exact sameFunctionClause_eq_ok.mpr
                ⟨name, (functionClause_eq_ok hm (by omega)).mpr ⟨ts, hts, d⟩, hfirst⟩
            · exact (ih (by omega) (by omega)).mpr ⟨us, hus, dmore⟩

/-- A function is its first clause with the further ones. -/
theorem functionForm_eq_ok {n : Nat} {f : Located Form} (hm : m.colonSeparates = false)
    (hn : c.rest.length ≤ n) (hnext : c'.next = some .terminator) :
    functionForm (within n) m c = .ok (f, c') ↔
      ∃ name first cs ts us, c.Passes (ts ++ us) c' ∧
        FunctionClause name first ts (firstOf us (some .terminator)) ∧
        FurtherClauses (name.node, first.node.patterns.length) cs us ∧
        f = ⟨.function name first.node.patterns.length (first :: cs),
          name.span.through (lastSpan name.span (ts ++ us))⟩ := by
  simp only [functionForm, bind_eq_ok, bounded_apply, previous_bind, pure_eq_ok]
  constructor
  · rintro ⟨⟨name, first⟩, c₁, hfirst, cs, c₂, hcs, rfl, rfl⟩
    obtain ⟨ts, hts, d⟩ := (functionClause_eq_ok hm hn).mp hfirst
    have hlen := hts.length_eq
    obtain ⟨us, hus, dmore⟩ := (furtherClauses_eq_ok hm (by omega) (Nat.le_refl _) hnext).mp hcs
    rw [hus.next_eq, hnext] at d
    have hne : ts ++ us ≠ [] := by
      cases d
      simp
    refine ⟨name, first, cs, ts, us, hts.trans hus, d, dmore, ?_⟩
    rw [(hts.trans hus).previous_of_ne_nil hne name.span]
  · rintro ⟨name, first, cs, ts, us, hp, d, dmore, rfl⟩
    have hne : ts ++ us ≠ [] := by
      cases d
      simp
    obtain ⟨c₁, hts, hus⟩ := hp.split_append
    have hlen := hts.length_eq
    rw [← hnext, ← hus.next_eq] at d
    refine ⟨(name, first), c₁, (functionClause_eq_ok hm hn).mpr ⟨ts, hts, d⟩, cs, c', ?_, ?_, rfl⟩
    · exact (furtherClauses_eq_ok hm (by omega) (Nat.le_refl _) hnext).mpr ⟨us, hus, dmore⟩
    · rw [hp.previous_of_ne_nil hne name.span]

/-! ### Attributes -/

/-- The name of an attribute is an atom or a reserved word. -/
theorem attributeName_eq_ok {r : Located String} :
    attributeName m c = .ok (r, c') ↔
      ∃ u, attributeName? u.node = some r.node ∧ r.span = u.span ∧ c.Passes [u] c' := by
  rw [attributeName, next?_bind]
  constructor
  · intro h
    rcases hn : c.rest.head? with _ | ⟨t, span⟩ <;> rw [hn] at h
    · exact absurd h unexpected_ne_ok
    · obtain ⟨c₁, hp⟩ := Cursor.passes_head hn
      cases t
      case atom name =>
        simp only [advance_bind hp, pure_eq_ok] at h
        obtain ⟨rfl, rfl⟩ := h
        exact ⟨_, rfl, rfl, hp⟩
      all_goals
        simp only at h
        split at h
        · next hk =>
          simp only [advance_bind hp, pure_eq_ok] at h
          obtain ⟨rfl, rfl⟩ := h
          refine ⟨_, ?_, rfl, hp⟩
          simp only [attributeName?, hk, if_true]
        · exact absurd h unexpected_ne_ok
  · rintro ⟨⟨t, span⟩, ht, hs, hp⟩
    obtain ⟨name, _⟩ := r
    subst hs
    rw [hp.rest]
    cases t
    case atom =>
      obtain rfl := Option.some.inj ht
      exact (advance_bind hp).trans (pure_eq_ok.mpr ⟨rfl, rfl⟩)
    all_goals
      simp only [attributeName?, Option.ite_none_right_eq_some, Option.some.injEq] at ht
      obtain ⟨hk, rfl⟩ := ht
      simp only [List.cons_append, List.head?_cons, hk, if_true]
      exact (advance_bind hp).trans (pure_eq_ok.mpr ⟨rfl, rfl⟩)

/-- Raw tokens are all tokens up to the terminator. -/
theorem rawTokens_eq_ok {ts : List Token} :
    rawTokens m c = .ok (ts, c') ↔
      ∃ toks, c.Passes toks c' ∧ ts = toks.map Located.node ∧ (∀ t ∈ toks, t.node ≠ .terminator) ∧
        (c'.rest = [] ∨ c'.next = some .terminator) := by
  obtain ⟨prev, rest⟩ := c
  simp only [rawTokens, Except.ok.injEq]
  induction rest generalizing prev ts with
  | nil =>
      constructor
      · intro h
        cases h
        exact ⟨[], .refl _, rfl, by simp, .inl rfl⟩
      · rintro ⟨toks, hp, rfl, -, -⟩
        obtain ⟨rfl, -⟩ := List.append_eq_nil_iff.mp hp.rest.symm
        rw [hp.eq_of_nil]
        rfl
  | cons t rest ih =>
      obtain ⟨k, span⟩ := t
      by_cases hk : k = .terminator
      · subst hk
        simp only [rawRun, if_true]
        constructor
        · intro h
          cases h
          exact ⟨[], .refl _, rfl, by simp, .inr rfl⟩
        · rintro ⟨_ | ⟨u, toks⟩, hp, rfl, hno, -⟩
          · rw [hp.eq_of_nil]
            rfl
          · obtain ⟨rfl, -⟩ := List.cons.inj hp.rest
            exact absurd rfl (hno _ List.mem_cons_self)
      · simp only [rawRun, if_neg hk]
        have hone : Cursor.Passes ⟨prev, ⟨k, span⟩ :: rest⟩ [⟨k, span⟩] ⟨span, rest⟩ := ⟨rfl, rfl⟩
        constructor
        · intro h
          obtain ⟨rfl, hc⟩ := Prod.mk.inj h
          have hrun : rawRun span rest = ((rawRun span rest).1, c') := Prod.ext rfl hc
          obtain ⟨toks, hp, hts, hno, hstop⟩ := (ih span).mp hrun
          refine ⟨⟨k, span⟩ :: toks, hone.cons hp, by rw [hts]; rfl, ?_, hstop⟩
          exact List.forall_mem_cons.mpr ⟨hk, hno⟩
        · rintro ⟨_ | ⟨u, toks⟩, hp, rfl, hno, hstop⟩
          · rw [hp.eq_of_nil] at hstop
            rcases hstop with h | h
            · cases h
            · exact absurd (Option.some.inj h) hk
          · obtain ⟨rfl, -⟩ := List.cons.inj hp.rest
            obtain ⟨c₁, p₁, hp⟩ := hp.split_cons
            obtain rfl := p₁.unique hone
            rw [(ih span).mpr ⟨toks, hp, rfl, fun t ht => hno t (List.mem_cons_of_mem _ ht), hstop⟩]
            rfl

/-- The arguments of an attribute are in parentheses, or there are none. -/
theorem attributeArgs_eq_ok {n : Nat} {es : List (Located Expr)} (hm : m.colonSeparates = false)
    (hn : c.rest.length ≤ n) (hnext : c'.next = some .terminator) :
    attributeArgs (within n) m c = .ok (es, c') ↔
      (es = [] ∧ c' = c) ∨
      (∃ l r : Located Token, l.node = .symbol .leftParen ∧ r.node = .symbol .rightParen ∧
        es = [] ∧ c.Passes [l, r] c') ∨
      (∃ l r ts, l.node = .symbol .leftParen ∧ r.node = .symbol .rightParen ∧
        Derivation false .exprs es ts (some r.node) ∧ c.Passes (l :: (ts ++ [r])) c') := by
  rw [attributeArgs, eat_bind_eq_ok]
  constructor
  · rintro (⟨l, c₁, hl, pl, h⟩ | ⟨-, h⟩)
    · rw [eat_bind_eq_ok] at h
      rcases h with ⟨r, c₂, hr, pr, h⟩ | ⟨-, h⟩
      · obtain ⟨rfl, rfl⟩ := pure_eq_ok.mp h
        exact .inr (.inl ⟨l, r, hl, hr, rfl, pl.cons pr⟩)
      · simp only [bind_eq_ok, expect_eq_ok, pure_eq_ok] at h
        obtain ⟨_, c₂, hes, _, _, ⟨r, hr, -, pr⟩, rfl, rfl⟩ := h
        obtain ⟨ts, hts, d⟩ := exprs_sound (within_sound n) hes
        rw [hm, pr.next_token] at d
        exact .inr (.inr ⟨l, r, ts, hl, hr, d, pl.cons (hts.trans pr)⟩)
    · obtain ⟨rfl, rfl⟩ := pure_eq_ok.mp h
      exact .inl ⟨rfl, rfl⟩
  · rintro (⟨rfl, rfl⟩ | ⟨l, r, hl, hr, rfl, hp⟩ | ⟨l, r, ts, hl, hr, d, hp⟩)
    · exact .inr ⟨by simp [hnext], pure_eq_ok.mpr ⟨rfl, rfl⟩⟩
    · obtain ⟨c₁, pl, pr⟩ := hp.split_cons
      refine .inl ⟨l, c₁, hl, pl, ?_⟩
      rw [eat_bind_eq_ok]
      exact .inl ⟨r, c', hr, pr, pure_eq_ok.mpr ⟨rfl, rfl⟩⟩
    · obtain ⟨c₁, pl, hp⟩ := hp.split_cons
      obtain ⟨c₂, hts, pr⟩ := hp.split_append
      have hlen := pl.rest_lt
      have hlen₁ := hts.length_eq
      refine .inl ⟨l, c₁, hl, pl, ?_⟩
      have hne := Begins.next_ne d.starts hts (t := .symbol .rightParen) rfl
      rw [eat_bind_eq_ok]
      refine .inr ⟨hne, ?_⟩
      simp only [bind_eq_ok, expect_eq_ok, pure_eq_ok]
      rw [← hm, ← pr.next_token] at d
      exact ⟨es, c₂, exprs_complete (within_complete n) d hts (by omega), _, c',
        ⟨r, hr, rfl, pr⟩, rfl, rfl⟩

/-- The value of an attribute that keeps its tokens. -/
theorem attributeValue_of_mem {rules : Rules Parser} {name : String} {value : AttributeValue}
    (hraw : name ∈ rawAttributes) :
    attributeValue rules name m c = .ok (value, c') ↔
      ∃ ts, value = .tokens ts ∧ rawTokens m c = .ok (ts, c') := by
  rw [attributeValue, if_pos (List.contains_iff_mem.mpr hraw)]
  simp only [bind_eq_ok, pure_eq_ok]
  constructor
  · rintro ⟨ts, _, hts, rfl, rfl⟩
    exact ⟨ts, rfl, hts⟩
  · rintro ⟨ts, rfl, hts⟩
    exact ⟨ts, c', hts, rfl, rfl⟩

/-- The value of any other attribute. -/
theorem attributeValue_of_notMem {rules : Rules Parser} {name : String} {value : AttributeValue}
    (hraw : name ∉ rawAttributes) :
    attributeValue rules name m c = .ok (value, c') ↔
      ∃ es, value = .exprs es ∧ attributeArgs rules m c = .ok (es, c') := by
  rw [attributeValue, if_neg (mt List.contains_iff_mem.mp hraw)]
  simp only [bind_eq_ok, pure_eq_ok]
  constructor
  · rintro ⟨es, _, hes, rfl, rfl⟩
    exact ⟨es, rfl, hes⟩
  · rintro ⟨es, rfl, hes⟩
    exact ⟨es, c', hes, rfl, rfl⟩

/-- An attribute is a minus sign, a name and a value. -/
theorem attributeForm_iff {rules : Rules Parser} {f : Located Form} :
    attributeForm rules m c = .ok (f, c') ↔
      ∃ d u name value c₁, d.node = .symbol .minus ∧ attributeName? u.node = some name ∧
        c.Passes [d, u] c₁ ∧ attributeValue rules name m c₁ = .ok (value, c') ∧
        f = ⟨.attribute ⟨name, u.span⟩ value, d.span.through c'.previous⟩ := by
  rw [attributeForm, expect_bind_eq_ok]
  simp only [bind_eq_ok, previous_bind, pure_eq_ok]
  constructor
  · rintro ⟨d, c₁, hd, pd, ⟨name, span⟩, c₂, hname, value, c₃, hvalue, rfl, rfl⟩
    obtain ⟨u, hu, rfl, pu⟩ := attributeName_eq_ok.mp hname
    exact ⟨d, u, name, value, c₂, hd, hu, pd.cons pu, hvalue, rfl⟩
  · rintro ⟨d, u, name, value, c₂, hd, hu, hp, hvalue, rfl⟩
    obtain ⟨c₁, pd, pu⟩ := hp.split_cons
    exact ⟨d, c₁, hd, pd, ⟨name, u.span⟩, c₂, attributeName_eq_ok.mpr ⟨u, hu, rfl, pu⟩, value, c',
      hvalue, rfl, rfl⟩

/-- An attribute is read exactly if it is derived. -/
theorem attributeForm_eq_ok {n : Nat} {f : Located Form} (hm : m.colonSeparates = false)
    (hn : c.rest.length ≤ n) (hnext : c'.next = some .terminator) :
    attributeForm (within n) m c = .ok (f, c') ↔
      c.next = some (.symbol .minus) ∧ ∃ toks, c.Passes toks c' ∧ FormDerivation f toks := by
  rw [attributeForm_iff]
  constructor
  · rintro ⟨d, u, name, value, c₁, hd, hu, hp, hvalue, rfl⟩
    refine ⟨by rw [hp.next_token, hd], ?_⟩
    by_cases hraw : name ∈ rawAttributes
    · obtain ⟨_, rfl, hts⟩ := (attributeValue_of_mem hraw).mp hvalue
      obtain ⟨toks, hpasses, rfl, hno, -⟩ := rawTokens_eq_ok.mp hts
      have hall := hp.trans hpasses
      refine ⟨_, hall, ?_⟩
      rw [hall.previous]
      exact .tokens hd hu hraw hno
    · obtain ⟨es, rfl, hes⟩ := (attributeValue_of_notMem hraw).mp hvalue
      rcases (attributeArgs_eq_ok hm (Nat.le_trans hp.rest_le hn) hnext).mp hes with
        ⟨rfl, rfl⟩ | ⟨l, r, hl, hr, rfl, hargs⟩ | ⟨l, r, ts, hl, hr, dargs, hargs⟩
      · refine ⟨_, hp, ?_⟩
        rw [hp.previous]
        exact .plain hd hu hraw
      · have hall := hp.trans hargs
        refine ⟨_, hall, ?_⟩
        rw [hall.previous]
        exact .noArgs hd hu hraw hl hr
      · have hall := hp.trans hargs
        refine ⟨_, hall, ?_⟩
        rw [hall.previous]
        simp only [List.cons_append, List.nil_append, lastSpan_cons, lastSpan_append]
        exact .args hd hu hraw hl dargs hr
  · rintro ⟨hminus, toks, hp, df⟩
    cases df with
    | @function name first cs ts us dfirst =>
        obtain ⟨hatom, -⟩ := dfirst
        rw [hp.next_eq] at hminus
        simp_all
    | @tokens name ts d u hd hu hraw hno =>
        have hsplit : c.Passes ([d, u] ++ ts) c' := hp
        obtain ⟨c₁, pu, hts⟩ := hsplit.split_append
        have hvalue : rawTokens m c₁ = .ok (ts.map Located.node, c') :=
          rawTokens_eq_ok.mpr ⟨ts, hts, rfl, hno, .inr hnext⟩
        exact ⟨d, u, name, _, c₁, hd, hu, pu,
          (attributeValue_of_mem hraw).mpr ⟨_, rfl, hvalue⟩, by rw [hp.previous]; rfl⟩
    | @plain name d u hd hu hraw =>
        have hvalue := (attributeArgs_eq_ok hm (Nat.le_trans hp.rest_le hn) hnext).mpr
          (.inl ⟨rfl, rfl⟩)
        exact ⟨d, u, name, _, c', hd, hu, hp,
          (attributeValue_of_notMem hraw).mpr ⟨_, rfl, hvalue⟩, by rw [hp.previous]; rfl⟩
    | @noArgs name d u l r hd hu hraw hl hr =>
        have hsplit : c.Passes ([d, u] ++ [l, r]) c' := hp
        obtain ⟨c₁, pu, hargs⟩ := hsplit.split_append
        have hvalue := (attributeArgs_eq_ok hm (Nat.le_trans pu.rest_le hn) hnext).mpr
          (.inr (.inl ⟨l, r, hl, hr, rfl, hargs⟩))
        exact ⟨d, u, name, _, c₁, hd, hu, pu,
          (attributeValue_of_notMem hraw).mpr ⟨_, rfl, hvalue⟩, by rw [hp.previous]; rfl⟩
    | @args name es ts d u l r hd hu hraw hl dargs hr =>
        have hsplit : c.Passes ([d, u] ++ l :: (ts ++ [r])) c' := hp
        obtain ⟨c₁, pu, hargs⟩ := hsplit.split_append
        have hvalue := (attributeArgs_eq_ok hm (Nat.le_trans pu.rest_le hn) hnext).mpr
          (.inr (.inr ⟨l, r, ts, hl, hr, dargs, hargs⟩))
        refine ⟨d, u, name, _, c₁, hd, hu, pu,
          (attributeValue_of_notMem hraw).mpr ⟨_, rfl, hvalue⟩, ?_⟩
        simp only [hp.previous, lastSpan_cons, lastSpan_append, lastSpan_nil]

/-! ### Declarations -/

/-- A form in front of a terminator is read exactly if it is derived. -/
theorem declaration_eq_ok {f : Located Form} (hm : m.colonSeparates = false)
    (hnext : c'.next = some .terminator) :
    declaration m c = .ok (f, c') ↔ ∃ toks, c.Passes toks c' ∧ FormDerivation f toks := by
  rw [declaration, check_bind_eq_ok]
  simp only [inContext_apply, withRules, bounded_apply]
  rw [attributeForm_eq_ok (by exact hm) (Nat.le_refl _) hnext,
    functionForm_eq_ok (by exact hm) (Nat.le_refl _) hnext]
  constructor
  · rintro (⟨-, -, h⟩ | ⟨-, name, first, cs, ts, us, hp, d, dmore, rfl⟩)
    · exact h
    · exact ⟨_, hp, .function d dmore⟩
  · rintro ⟨toks, hp, d⟩
    by_cases hminus : c.next = some (.symbol .minus)
    · exact .inl ⟨hminus, hminus, toks, hp, d⟩
    · refine .inr ⟨hminus, ?_⟩
      cases d with
      | function d dmore => exact ⟨_, _, _, _, _, hp, d, dmore, rfl⟩
      | tokens hd => exact absurd (by rw [hp.next_token, hd]) hminus
      | plain hd => exact absurd (by rw [hp.next_token, hd]) hminus
      | noArgs hd => exact absurd (by rw [hp.next_token, hd]) hminus
      | args hd => exact absurd (by rw [hp.next_token, hd]) hminus

end

/-- A derivation of the form in front of its terminator, which is the last token. -/
def FormOf (tokens : List (Located Token)) (f : Located Form) : Prop :=
  ∃ toks t, tokens = toks ++ [t] ∧ t.node = .terminator ∧ FormDerivation f toks

/-- A part is read as a form exactly if it is one, with nothing behind its terminator. -/
theorem form_iff {tokens : List (Located Token)} {f : Located Form} :
    form.run tokens = .ok f ↔ FormOf tokens f := by
  have hrun : form.run tokens = .ok f ↔
      ∃ c', form ⟨.expression, false⟩ ⟨.nowhere, tokens⟩ = .ok (f, c') := by
    rw [run]
    cases form ⟨.expression, false⟩ ⟨.nowhere, tokens⟩ with
    | error _ => simp [Except.map]
    | ok r => simp [Except.map, Prod.ext_iff]
  rw [hrun]
  simp only [form, bind_eq_ok, expect_eq_ok, expectEnd_eq_ok, pure_eq_ok]
  constructor
  · rintro ⟨c', f', c₁, hf, _, c₂, ⟨t, ht, -, pt⟩, _, c₃, ⟨hend, rfl⟩, rfl, rfl⟩
    obtain ⟨toks, hp, d⟩ := (declaration_eq_ok rfl (by rw [pt.next_token, ht])).mp hf
    refine ⟨toks, t, ?_, ht, d⟩
    simpa [hend] using (hp.trans pt).rest
  · rintro ⟨toks, t, rfl, ht, d⟩
    have hall : Cursor.Passes ⟨.nowhere, toks ++ [t]⟩ (toks ++ [t])
        ⟨lastSpan .nowhere (toks ++ [t]), []⟩ :=
      ⟨by simp, rfl⟩
    obtain ⟨c₁, hp, pt⟩ := hall.split_append
    have hnext : c₁.next = some .terminator := by rw [pt.next_token, ht]
    exact ⟨_, f, c₁, (declaration_eq_ok rfl hnext).mpr ⟨toks, hp, d⟩, _, _, ⟨t, ht, rfl, pt⟩, (), _,
      ⟨rfl, rfl⟩, rfl, rfl⟩

/-! ### Cutting into forms -/

/-- The cut loses nothing and puts nothing in. -/
theorem cutFrom_flatten (depth : Int32) (started tokens : List (Located Token)) :
    (cutFrom depth started tokens).1.flatten ++ (cutFrom depth started tokens).2 =
      started.reverse ++ tokens := by
  induction tokens generalizing depth started with
  | nil => simp [cutFrom]
  | cons t ts ih =>
      rw [cutFrom]
      split
      · simp [ih]
      · simp [ih, List.reverse_cons, List.append_assoc]

/-- The cut succeeds exactly if nothing is left behind the last terminator. -/
theorem cutForms_eq_ok {tokens : List (Located Token)} {parts : List (List (Located Token))} :
    cutForms tokens = .ok parts ↔ cutFrom 0 [] tokens = (parts, []) := by
  rw [cutForms]
  cases h : cutFrom 0 [] tokens with
  | mk ps rest =>
      rcases List.eq_nil_or_concat rest with rfl | ⟨rest, t, rfl⟩ <;> simp

/-- The parts are the tokens, in their order. -/
theorem cutForms_flatten {tokens : List (Located Token)} {parts : List (List (Located Token))}
    (h : cutForms tokens = .ok parts) : parts.flatten = tokens := by
  have := cutFrom_flatten 0 [] tokens
  rw [cutForms_eq_ok.mp h] at this
  simpa using this

/-- All parts are read, each to its form. -/
theorem mapM_eq_ok {ε α β : Type} {f : α → Except ε β} {as : List α} {bs : List β} :
    as.mapM f = .ok bs ↔ List.Forall₂ (fun a b => f a = .ok b) as bs := by
  induction as generalizing bs with
  | nil => cases bs <;> simp [pure, Except.pure]
  | cons a as ih =>
      rw [List.mapM_cons]
      cases hf : f a with
      | error e =>
          refine ⟨fun h => by simp [bind, Except.bind] at h, fun h => ?_⟩
          cases h with
          | cons h _ => rw [hf] at h; cases h
      | ok b =>
          cases hrest : as.mapM f with
          | error e =>
              refine ⟨fun h => by simp [bind, Except.bind] at h, fun h => ?_⟩
              cases h with
              | cons _ h => rw [ih.mpr h] at hrest; cases hrest
          | ok bs' =>
              have hbs := ih.mp hrest
              constructor
              · intro h
                simp only [bind, Except.bind, pure, Except.pure, Except.ok.injEq] at h
                subst h
                exact .cons hf hbs
              · intro h
                cases h with
                | cons hb h =>
                    rw [hf] at hb
                    rw [ih.mpr h] at hrest
                    cases hb
                    cases hrest
                    rfl

/-- The forms of a token sequence are derived from its parts, one by one. -/
theorem parseForms_iff {tokens : List (Located Token)} {fs : List (Located Form)} :
    parseForms tokens = .ok fs ↔ ∃ parts, cutForms tokens = .ok parts ∧
    List.Forall₂ FormOf parts fs := by
  rw [parseForms]
  cases h : cutForms tokens with
  | error e => simp [bind, Except.bind]
  | ok parts =>
      refine Iff.trans mapM_eq_ok ?_
      simp only [form_iff, Except.ok.injEq, exists_eq_left']

end ErlangFragment.Grammar
