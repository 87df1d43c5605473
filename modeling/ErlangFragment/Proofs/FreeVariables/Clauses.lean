import ErlangFragment.Proofs.FreeVariables.Macros
import ErlangFragment.Proofs.Grammar.Forms

/-! Sibling clauses. What a clause binds is gone behind it, so that the names that are free in an
expression with several clauses are those of the expression with one of them, for each of them. -/

namespace ErlangFragment

/-- An expression without the clauses that stand side by side in it. -/
inductive Branching
  | caseOf (subject : Located Expr)
  | ifElse
  | receive (after : Option After)
  | function (name : Option String)
  | tryOf (body : List (Located Expr)) (catchClauses : List (Located Clause))
      (after : List (Located Expr))
  | tryCatch (body : List (Located Expr)) (ofClauses : List (Located Clause))
      (after : List (Located Expr))

/-- The expression with these clauses. -/
def Branching.fill : Branching → List (Located Clause) → Expr
  | caseOf subject, cs => .caseExpr subject cs
  | ifElse, cs => .ifExpr cs
  | receive after, cs => .receiveExpr cs after
  | function name, cs => .funExpr name cs
  | tryOf body catchClauses after, cs => .tryExpr body cs catchClauses after
  | tryCatch body ofClauses after, cs => .tryExpr body ofClauses cs after

/-- The names of both. -/
def Names.union (ns more : Names) : Names := ns.foldr Names.insert more

/-- The names of all of them. -/
def Names.unions (parts : List Names) : Names := parts.foldr Names.union []

namespace FreeVariables

/-! ### Unions of sorted names -/

theorem Names.mem_union (x : String) (ns more : Names) :
    x ∈ Names.union ns more ↔ x ∈ ns ∨ x ∈ more := by
  induction ns with
  | nil => simp [Names.union]
  | cons n ns ih =>
      rw [Names.union] at ih
      rw [Names.union, List.foldr_cons, Names.mem_insert, ih, List.mem_cons, or_assoc]

theorem Names.sorted_union (ns : Names) {more : Names} (h : more.Pairwise (· < ·)) :
    (Names.union ns more).Pairwise (· < ·) := by
  induction ns with
  | nil => exact h
  | cons n ns ih => exact Names.sorted_insert n _ ih

theorem Names.union_sort (names more : Finset String) :
    Names.union names.sort more.sort = (names ∪ more).sort := by
  apply Names.eq_sort
  · exact Names.sorted_union _ more.sortedLT_sort.pairwise
  · ext x
    simp [Names.mem_union]

theorem Names.mem_unions (x : String) (parts : List Names) :
    x ∈ Names.unions parts ↔ ∃ ns ∈ parts, x ∈ ns := by
  induction parts with
  | nil => simp [Names.unions]
  | cons ns parts ih =>
      rw [Names.unions] at ih
      simp [Names.unions, Names.mem_union, ih]

theorem Names.sorted_unions (parts : List Names) : (Names.unions parts).Pairwise (· < ·) := by
  induction parts with
  | nil => exact .nil
  | cons ns parts ih => exact Names.sorted_union ns ih

/-! ### What clauses do to the visible names -/

theorem scan_clauses_cons (c : Located Clause) (cs : List (Located Clause))
    (visible : Finset String) :
    Scan.clauses .value (c :: cs) visible =
      ((Scan.clauses .value [c] visible).1 ∪ (Scan.clauses .value cs visible).1,
        (Scan.clauses .value cs visible).2) := by
  obtain ⟨⟨ps, gs, body⟩, s⟩ := c
  simp [Scan.clauses, Scan.andThen, Scan.nothing, Scan.discardingIn, Scan.discarding]

/-- No clause leaves anything visible behind it. -/
theorem scan_clauses_snd (cs : List (Located Clause)) (visible : Finset String) :
    (Scan.clauses .value cs visible).2 = visible := by
  induction cs with
  | nil => rfl
  | cons c cs ih => rw [scan_clauses_cons, ih]

/-- Every clause is scanned with the same names visible. -/
theorem mem_scan_clauses (cs : List (Located Clause)) (visible : Finset String) (x : String) :
    x ∈ (Scan.clauses .value cs visible).1 ↔ ∃ c ∈ cs, x ∈ (Scan.clauses .value [c] visible).1 := by
  induction cs with
  | nil => simp [Scan.clauses, Scan.nothing]
  | cons c cs ih => simp [scan_clauses_cons c cs, ih]

/-- What is free around the clauses, and what is visible in front of them, does not depend on
them. -/
theorem exists_scan_fill (b : Branching) : ∃ around visible, ∀ cs,
    (Scan.node .value (b.fill cs) ∅).1 = around ∪ (Scan.clauses .value cs visible).1 := by
  cases b with
  | caseOf e => exact ⟨(Scan.expr .value e ∅).1, (Scan.expr .value e ∅).2, fun cs => rfl⟩
  | ifElse => exact ⟨∅, ∅, fun cs => by simp [Branching.fill, Scan.node]⟩
  | receive a =>
      refine ⟨(Scan.after .value a ∅).1, ∅, fun cs => ?_⟩
      simp [Branching.fill, Scan.node, Scan.andThen, scan_clauses_snd, Finset.union_comm]
  | function name =>
      refine ⟨∅, (Scan.naming name ∅).2, fun cs => ?_⟩
      cases name <;> simp [Branching.fill, Scan.node, Scan.andThen, Scan.discarding, Scan.naming]
  | tryOf es catches a =>
      refine ⟨(Scan.exprs .value es ∅).1 ∪ (Scan.clauses .value catches ∅).1 ∪
        (Scan.exprs .value a ∅).1, (Scan.exprs .value es ∅).2, fun cs => ?_⟩
      simp only [Branching.fill, Scan.node, Scan.andThen, Scan.discardingIn, Scan.discarding,
        scan_clauses_snd]
      ac_rfl
  | tryCatch es os a =>
      refine ⟨(Scan.exprs .value es ∅).1 ∪ (Scan.clauses .value os (Scan.exprs .value es ∅).2).1 ∪
        (Scan.exprs .value a ∅).1, ∅, fun cs => ?_⟩
      simp only [Branching.fill, Scan.node, Scan.andThen, Scan.discardingIn, Scan.discarding,
        scan_clauses_snd]
      ac_rfl

/-- A name is free in a construct exactly if it is free with one of the clauses alone. -/
theorem mem_scan_fill (b : Branching) {cs : List (Located Clause)} (hcs : cs ≠ []) (x : String) :
    x ∈ (Scan.node .value (b.fill cs) ∅).1 ↔ ∃ c ∈ cs, x ∈ (Scan.node .value (b.fill [c]) ∅).1 := by
  obtain ⟨around, visible, hfill⟩ := exists_scan_fill b
  simp only [hfill, Finset.mem_union]
  rw [mem_scan_clauses]
  obtain ⟨c, hc⟩ := List.exists_mem_of_ne_nil cs hcs
  constructor
  · rintro (hx | ⟨d, hd, hx⟩)
    · exact ⟨c, hc, .inl hx⟩
    · exact ⟨d, hd, .inr hx⟩
  · rintro ⟨d, hd, hx | hx⟩
    · exact .inl hx
    · exact .inr ⟨d, hd, hx⟩

/-! ### Macros among clauses -/

theorem mem_preorder_clauses (cs : List (Located Clause)) (v : Visited) :
    v ∈ Preorder.clauses (fun _ => true) cs ↔
    ∃ c ∈ cs, v ∈ Preorder.clauses (fun _ => true) [c] := by
  induction cs with
  | nil => simp [Preorder.clauses]
  | cons c cs ih =>
      obtain ⟨⟨ps, gs, body⟩, s⟩ := c
      rw [Preorder.clauses, List.mem_append, ih]
      simp [Preorder.clauses]

theorem NoMacros.clauses {cs kept : List (Located Clause)}
    (h : NoMacros (Preorder.clauses (fun _ => true) cs)) (hkept : ∀ c ∈ kept, c ∈ cs) :
    NoMacros (Preorder.clauses (fun _ => true) kept) := by
  intro name args s hmem
  obtain ⟨c, hc, hmem⟩ := (mem_preorder_clauses _ _).mp hmem
  exact h name args s ((mem_preorder_clauses _ _).mpr ⟨c, hkept c hc, hmem⟩)

/-- What is met around the clauses does not depend on them. -/
theorem exists_preorder_fill (b : Branching) : ∃ before behind, ∀ cs,
    Preorder.node (fun _ => true) (b.fill cs) =
      before ++ Preorder.clauses (fun _ => true) cs ++ behind := by
  cases b with
  | caseOf e => exact ⟨Preorder.expr (fun _ => true) e, [], fun cs => (List.append_nil _).symm⟩
  | ifElse => exact ⟨[], [], fun cs => (List.append_nil _).symm⟩
  | receive a => exact ⟨[], Preorder.after (fun _ => true) a, fun cs => rfl⟩
  | function name => exact ⟨[], [], fun cs => (List.append_nil _).symm⟩
  | tryOf es catches a =>
      refine ⟨Preorder.exprs (fun _ => true) es,
        Preorder.clauses (fun _ => true) catches ++ Preorder.exprs (fun _ => true) a, fun cs => ?_⟩
      simp [Branching.fill, Preorder.node]
  | tryCatch es os a =>
      exact ⟨Preorder.exprs (fun _ => true) es ++ Preorder.clauses (fun _ => true) os,
        Preorder.exprs (fun _ => true) a, fun cs => rfl⟩

theorem NoMacros.fill {b : Branching} {cs kept : List (Located Clause)} {span : Span}
    (h : NoMacros (Preorder.expr (fun _ => true) ⟨b.fill cs, span⟩)) (hkept : ∀ c ∈ kept, c ∈ cs) :
    NoMacros (Preorder.expr (fun _ => true) ⟨b.fill kept, span⟩) := by
  obtain ⟨before, behind, hnode⟩ := exists_preorder_fill b
  have hinside : NoMacros (Preorder.node (fun _ => true) (b.fill cs)) := h.inside
  rw [hnode] at hinside
  obtain ⟨hfront, hbehind⟩ := hinside.append
  obtain ⟨hbefore, hclauses⟩ := hfront.append
  intro name args s hmem
  rcases List.mem_cons.mp hmem with hroot | hmem
  · cases b <;> cases hroot
  · rw [if_pos rfl, hnode, List.mem_append, List.mem_append] at hmem
    rcases hmem with (hmem | hmem) | hmem
    · exact hbefore name args s hmem
    · exact hclauses.clauses hkept name args s hmem
    · exact hbehind name args s hmem

/-! ### Clauses by themselves -/

/-- The analysis of one clause more. -/
theorem ofEvents_clauses_cons (c : Located Clause) (cs : List (Located Clause)) :
    ofEvents (clauses .value (c :: cs)) = (do
      let names ← ofEvents (clauses .value [c])
      let more ← ofEvents (clauses .value cs)
      return Names.union names more) := by
  have hfaults : faults (clauses .value (c :: cs)) =
      faults (clauses .value [c]) ++ faults (clauses .value cs) := by
    simp [faults_clauses]
  -- The first fault decides. Without one, both runs are scans that start with nothing visible.
  cases hc : ofEvents (clauses .value [c]) with
  | error err =>
      rw [ofEvents_eq_error_iff] at hc
      refine (ofEvents_eq_error_iff _ _).mpr ?_
      rw [hfaults, List.head?_append, hc, Option.some_or]
  | ok names =>
      have hcnil := faults_eq_nil_of_ok hc
      cases hcs : ofEvents (clauses .value cs) with
      | error err =>
          rw [ofEvents_eq_error_iff] at hcs
          refine (ofEvents_eq_error_iff _ _).mpr ?_
          rw [hfaults, hcnil, List.nil_append, hcs]
      | ok more =>
          have hcsnil := faults_eq_nil_of_ok hcs
          obtain rfl := Except.ok.inj (hc.symm.trans (clauses_of_faults hcnil))
          obtain rfl := Except.ok.inj (hcs.symm.trans (clauses_of_faults hcsnil))
          rw [clauses_of_faults (by rw [hfaults, hcnil, hcsnil, List.nil_append]),
            scan_clauses_cons, ← Names.union_sort]
          rfl

/-- The free names of a function are those of its clauses. -/
theorem ofEvents_clauses (cs : List (Located Clause)) :
    ofEvents (clauses .value cs) =
      (cs.mapM fun c => ofEvents (clauses .value [c])).map Names.unions := by
  induction cs with
  | nil => rfl
  | cons c cs ih =>
      rw [ofEvents_clauses_cons, ih, List.mapM_cons]
      cases ofEvents (clauses .value [c]) with
      | error err => rfl
      | ok names => cases cs.mapM fun c => ofEvents (clauses .value [c]) <;> rfl

/-- A fun without a name has the free names of its clauses. -/
theorem freeVariables_fun (cs : List (Located Clause)) (span : Span) :
    freeVariables ⟨.funExpr none cs, span⟩ = ofEvents (clauses .value cs) := by
  have hfaults : faults (expr .value ⟨.funExpr none cs, span⟩) = faults (clauses .value cs) := by
    simp [expr, node]
  have hscan : (Scan.expr .value ⟨.funExpr none cs, span⟩ ∅).1 = (Scan.clauses .value cs ∅).1 := by
    simp [Scan.expr, Scan.node, Scan.andThen, Scan.discarding, Scan.naming]
  have hmap : freeVariables ⟨.funExpr none cs, span⟩ = (ofEvents (clauses .value cs)).map id := by
    refine ofEvents_eq_map hfaults fun names hnames => ?_
    have hnil := faults_eq_nil_of_ok hnames
    rw [clauses_of_faults hnil, ← hscan] at hnames
    exact (freeVariables_of_faults (hfaults.trans hnil)).trans hnames
  rw [hmap]
  cases ofEvents (clauses .value cs) <;> rfl

/-! ### Sibling clauses -/

section

variable {b : Branching} {cs : List (Located Clause)} {span : Span}

theorem freeVariables_fill {kept : List (Located Clause)}
    (h : NoMacros (Preorder.expr (fun _ => true) ⟨b.fill cs, span⟩)) (hkept : ∀ c ∈ kept, c ∈ cs) :
    freeVariables ⟨b.fill kept, span⟩ = .ok (Scan.node .value (b.fill kept) ∅).1.sort :=
  (expr_represents .value _ (h.fill hkept)).ofEvents

/-- The free names are those found for each clause by itself, put together. -/
theorem freeVariables_fill_unions (hcs : cs ≠ [])
    (h : NoMacros (Preorder.expr (fun _ => true) ⟨b.fill cs, span⟩)) :
    ∃ parts, (cs.mapM fun c => freeVariables ⟨b.fill [c], span⟩) = .ok parts ∧
      freeVariables ⟨b.fill cs, span⟩ = .ok (Names.unions parts) := by
  refine ⟨cs.map fun c => (Scan.node .value (b.fill [c]) ∅).1.sort, ?_, ?_⟩
  · rw [Grammar.mapM_eq_ok, List.forall₂_map_right_iff, List.forall₂_same]
    intro c hc
    apply freeVariables_fill h
    simpa using hc
  · rw [freeVariables_fill h fun c hc => hc, Except.ok.injEq, eq_comm]
    apply Names.eq_sort (Names.sorted_unions _)
    ext x
    simp [Names.mem_unions, mem_scan_fill b hcs]

/-- Order and repetition of clauses do not matter. -/
theorem freeVariables_fill_congr (hcs : cs ≠ [])
    (h : NoMacros (Preorder.expr (fun _ => true) ⟨b.fill cs, span⟩)) {cs' : List (Located Clause)}
    (hsame : ∀ c, c ∈ cs' ↔ c ∈ cs) :
    freeVariables ⟨b.fill cs', span⟩ = freeVariables ⟨b.fill cs, span⟩ := by
  obtain ⟨c, hc⟩ := List.exists_mem_of_ne_nil cs hcs
  have hcs' : cs' ≠ [] := List.ne_nil_of_mem ((hsame c).mpr hc)
  have hscan : (Scan.node .value (b.fill cs') ∅).1 = (Scan.node .value (b.fill cs) ∅).1 := by
    ext x
    simp only [mem_scan_fill b hcs', mem_scan_fill b hcs, hsame]
  rw [freeVariables_fill h fun c hc => (hsame c).mp hc, freeVariables_fill h fun c hc => hc, hscan]

end

theorem freeVariablesInForm_congr {name : Located String} {arity : Nat}
    {cs cs' : List (Located Clause)} {span : Span}
    (h : NoMacros (Preorder.form (fun _ => true) ⟨.function name arity cs, span⟩))
    (hsame : ∀ c, c ∈ cs' ↔ c ∈ cs) :
    freeVariablesInForm ⟨.function name arity cs', span⟩ =
      freeVariablesInForm ⟨.function name arity cs, span⟩ := by
  have hclauses : NoMacros (Preorder.clauses (fun _ => true) cs) := h.inside
  have hfree : ofEvents (clauses .value cs) = _ := (clauses_represents .value cs hclauses).ofEvents
  have hfree' : ofEvents (clauses .value cs') = _ :=
    (clauses_represents .value cs' (hclauses.clauses fun c hc => (hsame c).mp hc)).ofEvents
  have hscan : (Scan.clauses .value cs' ∅).1 = (Scan.clauses .value cs ∅).1 := by
    ext x
    rw [mem_scan_clauses, mem_scan_clauses]
    simp only [hsame]
  rw [freeVariablesInForm, freeVariablesInForm, hfree, hfree', hscan]

/-- Sibling clauses do not see each other: the free names are the union over the clauses of what is
free with this clause alone, and the order and the number of clauses do not matter. -/
theorem freeVariables_siblings :
    (∀ (b : Branching) (cs : List (Located Clause)) (span : Span), cs ≠ [] →
      NoMacros (Preorder.expr (fun _ => true) ⟨b.fill cs, span⟩) →
      (∃ parts, (cs.mapM fun c => freeVariables ⟨b.fill [c], span⟩) = .ok parts ∧
        freeVariables ⟨b.fill cs, span⟩ = .ok (Names.unions parts)) ∧
      ∀ cs', (∀ c, c ∈ cs' ↔ c ∈ cs) →
        freeVariables ⟨b.fill cs', span⟩ = freeVariables ⟨b.fill cs, span⟩) ∧
    (∀ (name : Located String) (arity : Nat) (cs : List (Located Clause)) (span : Span),
      (∀ s, freeVariablesInForm ⟨.function name arity cs, span⟩ =
        (cs.mapM fun c => freeVariables ⟨.funExpr none [c], s⟩).map Names.unions) ∧
      (NoMacros (Preorder.form (fun _ => true) ⟨.function name arity cs, span⟩) →
        ∀ cs', (∀ c, c ∈ cs' ↔ c ∈ cs) → freeVariablesInForm ⟨.function name arity cs', span⟩ =
          freeVariablesInForm ⟨.function name arity cs, span⟩)) := by
  constructor
  · intro b cs span hcs hmacros
    exact ⟨freeVariables_fill_unions hcs hmacros, fun cs' => freeVariables_fill_congr hcs hmacros⟩
  · intro name arity cs span
    refine ⟨fun s => ?_, fun hmacros cs' => freeVariablesInForm_congr hmacros⟩
    simp only [freeVariables_fun]
    exact ofEvents_clauses cs

/-- The clauses `Y -> Y` and `Z -> Y`, of which the first binds what is free in the second. -/
def clausePair : List (Located Clause) :=
  [⟨⟨[⟨.var "Y", .nowhere⟩], [], [⟨.var "Y", .nowhere⟩]⟩, .nowhere⟩,
    ⟨⟨[⟨.var "Z", .nowhere⟩], [], [⟨.var "Y", .nowhere⟩]⟩, .nowhere⟩]

theorem noMacros_clausePair : NoMacros (Preorder.clauses (fun _ => true) clausePair) := by
  intro name args span hmem
  simp [clausePair, Preorder.clauses, Preorder.meet, Preorder.exprs, Preorder.expr, Preorder.node,
    Preorder.guards] at hmem

/-- The expression `case X of Y -> Y; Z -> Y end` and the function with these clauses, in either
order. -/
theorem freeVariables_siblings_pair :
    let subject : Branching := .caseOf ⟨.var "X", .nowhere⟩
    freeVariables ⟨subject.fill clausePair, .nowhere⟩ = .ok (Names.unions [["X"], ["X", "Y"]]) ∧
      freeVariables ⟨subject.fill clausePair.reverse, .nowhere⟩ =
        freeVariables ⟨subject.fill clausePair, .nowhere⟩ ∧
      freeVariablesInForm ⟨.function ⟨"f", .nowhere⟩ 1 clausePair.reverse, .nowhere⟩ =
        freeVariablesInForm ⟨.function ⟨"f", .nowhere⟩ 1 clausePair, .nowhere⟩ := by
  intro subject
  have hcase : NoMacros (Preorder.expr (fun _ => true) ⟨subject.fill clausePair, .nowhere⟩) := by
    intro name args span hmem
    rcases List.mem_cons.mp hmem with hroot | hmem
    · cases hroot
    rcases List.mem_append.mp hmem with hsubject | hmem
    · simp [Preorder.expr, Preorder.meet, Preorder.node] at hsubject
    · exact noMacros_clausePair name args span hmem
  have hform : NoMacros (Preorder.form (fun _ => true)
      ⟨.function ⟨"f", .nowhere⟩ 1 clausePair, .nowhere⟩) := by
    intro name args span hmem
    rcases List.mem_cons.mp hmem with hroot | hmem
    · cases hroot
    · exact noMacros_clausePair name args span hmem
  obtain ⟨⟨parts, hparts, hunion⟩, hreorder⟩ :=
    freeVariables_siblings.1 subject clausePair .nowhere (by simp [clausePair]) hcase
  have hmap : (clausePair.mapM fun c => freeVariables ⟨subject.fill [c], .nowhere⟩) =
      .ok [["X"], ["X", "Y"]] := by decide
  obtain rfl := Except.ok.inj (hparts.symm.trans hmap)
  refine ⟨hunion, hreorder _ fun c => List.mem_reverse, ?_⟩
  exact (freeVariables_siblings.2 ⟨"f", .nowhere⟩ 1 clausePair .nowhere).2 hform _ fun c =>
    List.mem_reverse

end FreeVariables

end ErlangFragment
