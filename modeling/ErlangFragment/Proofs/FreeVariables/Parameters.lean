import ErlangFragment.Proofs.FreeVariables.Macros

/-! Parameters of funs. What is visible in front of a tree is not free in it and changes nothing
else, so that the parameters of a fun take exactly themselves away from what is free in its body. -/

namespace ErlangFragment

/-- The fun with one clause, which takes the parameters and has the body. -/
def Expr.abstraction (params : List (Located String)) (body : Located Expr) (span : Span) : Expr :=
  .funExpr none [⟨⟨params.map fun x => ⟨.var x.node, x.span⟩, [], [body]⟩, span⟩]

namespace FreeVariables

namespace Scan

/-- The scans that trees are made of. -/
inductive Composed : Scan → Prop
  | nothing : Composed nothing
  | occurrence (name : String) : Composed (occurrence name)
  | binding (name : String) : Composed (binding name)
  | naming (name : Option String) : Composed (naming name)
  | andThen {s t : Scan} : Composed s → Composed t → Composed (s.andThen t)
  | discarding {s : Scan} : Composed s → Composed s.discarding

theorem Composed.discardingIn {s : Scan} (reading : Reading) (hs : Composed s) :
    Composed (discardingIn reading s) := by
  cases reading with
  | value => exact hs.discarding
  | pattern => exact hs

mutual

/-- The scan of a node is put together from those of single names. -/
theorem node_composed (reading : Reading) : ∀ e : Expr, Composed (node reading e)
  | .integer _ | .float _ | .char _ | .string _ | .atom _ | .recordIndex _ _
  | .macroUse _ _ => .nothing
  | .var v => by
    cases reading with
    | value => exact .occurrence v
    | pattern => exact .binding v
  | .tuple es => exprs_composed reading es
  | .list es tail => (exprs_composed reading es).andThen (optional_composed reading tail)
  | .binary ss => segments_composed reading ss
  | .map base fs => (optional_composed .value base).andThen (mapFields_composed reading fs)
  | .record base _ fs => (optional_composed reading base).andThen (recordFields_composed reading fs)
  | .recordAccess base _ _ => expr_composed reading base
  | .matchExpr p v => by
    cases reading with
    | value => exact (expr_composed .value v).andThen (expr_composed .pattern p)
    | pattern => exact (expr_composed .pattern p).andThen (expr_composed .pattern v)
  | .binaryOp _ a b => (expr_composed reading a).andThen (expr_composed reading b)
  | .unaryOp _ a => expr_composed reading a
  | .call f args => (expr_composed reading f).andThen (exprs_composed reading args)
  | .remote m f => (expr_composed reading m).andThen (expr_composed reading f)
  | .block es => (exprs_composed reading es).discardingIn reading
  | .caseExpr e cs => (expr_composed reading e).andThen (clauses_composed reading cs)
  | .ifExpr cs => clauses_composed reading cs
  | .receiveExpr cs a => (clauses_composed reading cs).andThen (after_composed reading a)
  | .tryExpr es os cs a =>
    (((exprs_composed reading es).andThen (clauses_composed reading os)).discardingIn
      reading).andThen
      ((clauses_composed reading cs).andThen ((exprs_composed reading a).discardingIn reading))
  | .catchExpr e => expr_composed reading e
  | .listComp e qs | .binaryComp e qs => by
    cases reading with
    | value => exact ((qualifiers_composed .value qs).andThen (expr_composed .value e)).discarding
    | pattern => exact (expr_composed .pattern e).andThen (qualifiers_composed .pattern qs)
  | .funExpr name cs => by
    cases reading with
    | value => exact ((Composed.naming name).andThen (clauses_composed .value cs)).discarding
    | pattern => exact clauses_composed .pattern cs
  | .funRef m f a =>
    (optional_composed reading m).andThen
      ((expr_composed reading f).andThen (expr_composed reading a))

theorem expr_composed (reading : Reading) : ∀ e : Located Expr, Composed (expr reading e)
  | ⟨e, _⟩ => node_composed reading e

theorem exprs_composed (reading : Reading) : ∀ es : List (Located Expr), Composed (exprs reading es)
  | [] => .nothing
  | e :: es => (expr_composed reading e).andThen (exprs_composed reading es)

theorem optional_composed (reading : Reading) :
    ∀ e : Option (Located Expr), Composed (optional reading e)
  | none => .nothing
  | some e => expr_composed reading e

theorem guards_composed (reading : Reading) :
    ∀ gs : List (List (Located Expr)), Composed (guards reading gs)
  | [] => .nothing
  | g :: gs => (exprs_composed reading g).andThen (guards_composed reading gs)

theorem clauses_composed (reading : Reading) :
    ∀ cs : List (Located Clause), Composed (clauses reading cs)
  | [] => .nothing
  | ⟨⟨ps, gs, body⟩, _⟩ :: cs =>
    (((exprs_composed .pattern ps).andThen
      ((guards_composed reading gs).andThen (exprs_composed reading body))).discardingIn
        reading).andThen
        (clauses_composed reading cs)

theorem segments_composed (reading : Reading) : ∀ ss : List Segment, Composed (segments reading ss)
  | [] => .nothing
  | ⟨value, size, _⟩ :: ss =>
    (expr_composed reading value).andThen
      ((optional_composed .value size).andThen (segments_composed reading ss))

theorem mapFields_composed (reading : Reading) :
    ∀ fs : List MapField, Composed (mapFields reading fs)
  | [] => .nothing
  | ⟨key, _, value⟩ :: fs =>
    (expr_composed .value key).andThen
      ((expr_composed reading value).andThen (mapFields_composed reading fs))

theorem recordFields_composed (reading : Reading) :
    ∀ fs : List RecordField, Composed (recordFields reading fs)
  | [] => .nothing
  | ⟨_, value⟩ :: fs => (expr_composed reading value).andThen (recordFields_composed reading fs)

theorem qualifiers_composed (reading : Reading) :
    ∀ qs : List Qualifier, Composed (qualifiers reading qs)
  | [] => .nothing
  | .generator p e :: qs | .binaryGenerator p e :: qs => by
    cases reading with
    | value =>
        exact ((expr_composed .value e).andThen (expr_composed .pattern p)).andThen
          (qualifiers_composed .value qs)
    | pattern =>
        exact ((expr_composed .pattern p).andThen (expr_composed .pattern e)).andThen
          (qualifiers_composed .pattern qs)
  | .filter e :: qs => (expr_composed reading e).andThen (qualifiers_composed reading qs)

theorem after_composed (reading : Reading) : ∀ a : Option After, Composed (after reading a)
  | none => .nothing
  | some ⟨timeout, body⟩ =>
    (expr_composed reading timeout).andThen ((exprs_composed reading body).discardingIn reading)

end

variable {s : Scan}

/-- What is visible is not free, and nothing else depends on it. -/
theorem Composed.apply_eq (h : Composed s) (visible : Finset String) :
    s visible = ((s ∅).1 \ visible, visible ∪ (s ∅).2) := by
  induction h generalizing visible with
  | nothing => simp [Scan.nothing]
  | occurrence name => by_cases hname : name = "_" <;> simp [Scan.occurrence, hname]
  | binding name => by_cases hname : name = "_" <;> simp [Scan.binding, hname]
  | naming name => cases name <;> simp [Scan.naming]
  | @andThen s t _ _ hs ht =>
      simp only [Scan.andThen]
      rw [hs visible, ht (visible ∪ (s ∅).2), ht (s ∅).2]
      refine Prod.ext ?_ (Finset.union_assoc _ _ _)
      simp only [Finset.union_sdiff_distrib, sdiff_sdiff_left, Finset.sup_eq_union,
        Finset.union_comm]
  | @discarding s _ hs =>
      simp only [Scan.discarding]
      rw [hs visible]
      simp

/-- The variable `_` is never free. -/
theorem Composed.underscore_notMem (h : Composed s) (visible : Finset String) :
    "_" ∉ (s visible).1 := by
  induction h generalizing visible with
  | nothing => simp [Scan.nothing]
  | occurrence name =>
      by_cases hname : name = "_"
      · simp [Scan.occurrence, hname]
      · simp [Scan.occurrence, hname, Ne.symm hname]
  | binding name => by_cases hname : name = "_" <;> simp [Scan.binding, hname]
  | naming name => cases name <;> simp [Scan.naming]
  | andThen _ _ hs ht =>
      rw [Scan.andThen, Finset.mem_union]
      exact not_or.mpr ⟨hs visible, ht _⟩
  | discarding _ hs => exact hs visible

end Scan

/-! ### Parameters -/

theorem faults_abstraction (params : List (Located String)) (body : Located Expr) (s t : Span) :
    faults (expr .value ⟨.abstraction params body s, t⟩) = faults (expr .value body) := by
  have hparams : faults (exprs .pattern (params.map fun x => ⟨.var x.node, x.span⟩)) = [] := by
    induction params with
    | nil => rfl
    | cons x xs ih => simp [exprs, expr, node, ih]
  simp [Expr.abstraction, expr, node, clauses, guards, exprs, hparams]

/-- What is visible behind parameters. -/
theorem scan_parameters (params : List (Located String)) (visible : Finset String) :
    Scan.exprs .pattern (params.map fun x => ⟨.var x.node, x.span⟩) visible =
      (∅, visible ∪ (params.map Located.node).toFinset.erase "_") := by
  induction params generalizing visible with
  | nil => simp [Scan.exprs, Scan.nothing]
  | cons x xs ih =>
      by_cases hx : x.node = "_"
      · simp [Scan.exprs, Scan.andThen, Scan.expr, Scan.node, Scan.binding, hx, ih]
      · simp [Scan.exprs, Scan.andThen, Scan.expr, Scan.node, Scan.binding, hx, ih,
          Finset.erase_insert_of_ne]

/-- Parameters take their names out of what is free in the body. -/
theorem scan_abstraction (params : List (Located String)) (body : Located Expr) (s t : Span) :
    (Scan.expr .value ⟨.abstraction params body s, t⟩ ∅).1 =
      (Scan.expr .value body ∅).1 \ (params.map Located.node).toFinset := by
  have hbody := Scan.expr_composed .value body
  have hscan : (Scan.expr .value ⟨.abstraction params body s, t⟩ ∅).1 =
      (Scan.expr .value body ((params.map Located.node).toFinset.erase "_")).1 := by
    simp [Expr.abstraction, Scan.expr, Scan.node, Scan.clauses, Scan.guards, Scan.exprs,
      Scan.andThen, Scan.discardingIn, Scan.discarding, Scan.naming, Scan.nothing, scan_parameters]
  have hunderscore := hbody.underscore_notMem ∅
  -- A parameter `_` binds nothing, and nothing is taken away by it either.
  rw [hscan, hbody.apply_eq]
  ext x
  simp only [Finset.mem_sdiff, Finset.mem_erase, ne_eq]
  refine and_congr_right fun hx => not_congr (and_iff_right ?_)
  rintro rfl
  exact hunderscore hx

/-- The names of a set that fulfil a test. -/
theorem Names.filter_sort (names : Finset String) (test : String → Bool) :
    names.sort.filter test = (names.filter fun x => test x = true).sort := by
  apply Names.eq_sort
  · exact names.sortedLT_sort.pairwise.filter test
  · ext x
    simp

/-- The free names of a fun are those of its body without the parameters, and it fails as its body
does. Parameters that have all the free names of the body leave none. -/
theorem freeVariables_abstraction (params : List (Located String)) (body : Located Expr)
    (s t : Span) :
    freeVariables ⟨.abstraction params body s, t⟩ =
      (freeVariables body).map (·.filter fun x => x ∉ params.map Located.node) ∧
    ∀ names, freeVariables body = .ok names → names ⊆ params.map Located.node →
      freeVariables ⟨.abstraction params body s, t⟩ = .ok [] := by
  have hfilter : freeVariables ⟨.abstraction params body s, t⟩ =
      (freeVariables body).map (·.filter fun x => x ∉ params.map Located.node) := by
    have hfaults := faults_abstraction params body s t
    refine ofEvents_eq_map hfaults fun names hnames => ?_
    have hnil := faults_eq_nil_of_ok hnames
    obtain rfl := Except.ok.inj (hnames.symm.trans (freeVariables_of_faults hnil))
    have hfree : freeVariables ⟨.abstraction params body s, t⟩ = _ :=
      freeVariables_of_faults (hfaults.trans hnil)
    rw [freeVariables] at hfree
    rw [hfree, scan_abstraction, Names.filter_sort, Finset.sdiff_eq_filter]
    simp
  refine ⟨hfilter, fun names hnames hparams => ?_⟩
  have hnone : names.filter (fun x => x ∉ params.map Located.node) = [] := by
    rw [List.filter_eq_nil_iff]
    intro x hx
    simpa using hparams hx
  rw [hfilter, hnames, Except.map, hnone]

/-- The tuple `{begin Y end, X, Y}`, in which the second `Y` is found free outside the block of the
first. -/
def blockThenName : Located Expr :=
  ⟨.tuple [⟨.block [⟨.var "Y", .nowhere⟩], .nowhere⟩, ⟨.var "X", .nowhere⟩,
    ⟨.var "Y", .nowhere⟩], .nowhere⟩

theorem freeVariables_abstraction_block :
    freeVariables blockThenName = .ok ["X", "Y"] ∧
      freeVariables ⟨.abstraction [⟨"Y", .nowhere⟩, ⟨"X", .nowhere⟩] blockThenName .nowhere,
        .nowhere⟩ =
        .ok [] := by
  have hnames : freeVariables blockThenName = .ok ["X", "Y"] := by decide
  exact ⟨hnames, (freeVariables_abstraction _ _ _ _).2 _ hnames (by simp)⟩

end FreeVariables

end ErlangFragment
