import Mathlib.Data.List.Perm.Basic
import ErlangFragment.Proofs.FreeVariables
import ErlangFragment.Proofs.Tree.Traversal

/-! When the analysis fails. It meets every part of a tree, in an order of its own, and it fails at
the first macro in this order. -/

namespace ErlangFragment

open FreeVariables

/-! ### The order of the analysis -/

/-- The parts of a qualifier of a value: a source comes before its pattern. -/
def Qualifier.analysed : Qualifier → List (Reading × Part)
  | generator p e => [(.value, .expr e), (.pattern, .expr p)]
  | binaryGenerator p e => [(.value, .expr e), (.pattern, .expr p)]
  | filter e => [(.value, .expr e)]

/-- The parts right below a node and how they are read. Sizes of segments, keys and bases of maps
are values in any case. In values, what is matched comes before the pattern, and qualifiers come
before the template. All else is in the order of the source. -/
def Expr.analysed : Reading → Expr → List (Reading × Part)
  | reading, binary ss =>
    ss.flatMap fun s => (reading, .expr s.value) :: s.size.toList.map fun e => (.value, .expr e)
  | reading, map base fs =>
    base.toList.map (fun e => (.value, .expr e)) ++
      fs.flatMap fun f => [(.value, .expr f.key), (reading, .expr f.value)]
  | .value, matchExpr p v => [(.value, .expr v), (.pattern, .expr p)]
  | .value, listComp e qs => qs.flatMap Qualifier.analysed ++ [(.value, .expr e)]
  | .value, binaryComp e qs => qs.flatMap Qualifier.analysed ++ [(.value, .expr e)]
  | reading, e => e.parts.map fun p => (reading, p)

namespace Part

/-- The parts right below a part and how they are read. -/
def analysed (reading : Reading) : Part → List (Reading × Part)
  | expr e => e.node.analysed reading
  | clause c =>
    c.node.patterns.map (fun e => (.pattern, .expr e)) ++
      (c.node.guards.flatten ++ c.node.body).map fun e => (reading, .expr e)

theorem qualifiers_analysed_perm (qs : List Qualifier) :
    ((qs.flatMap Qualifier.analysed).map Prod.snd).Perm
      ((qs.flatMap Qualifier.exprs).map Part.expr) := by
  induction qs with
  | nil => exact .refl _
  | cons q qs ih =>
      simp only [List.flatMap_cons, List.map_append]
      refine .append ?_ ih
      cases q with
      | generator p e => exact .swap _ _ _
      | binaryGenerator p e => exact .swap _ _ _
      | filter e => exact .refl _

/-- The analysis forgets no part of a node. -/
theorem node_analysed_perm (reading : Reading) (e : Expr) :
    ((e.analysed reading).map Prod.snd).Perm e.parts := by
  have htemplate (e : Located Expr) (qs : List Qualifier) :
      ((qs.flatMap Qualifier.analysed ++ [(Reading.value, Part.expr e)]).map Prod.snd).Perm
        (.expr e :: (qs.flatMap Qualifier.exprs).map Part.expr) := by
    rw [List.map_append, List.map_singleton]
    exact List.perm_append_comm.trans ((qualifiers_analysed_perm qs).cons _)
  cases reading with
  | value =>
      cases e
      case matchExpr p v => exact .swap _ _ _
      case listComp e qs => exact htemplate e qs
      case binaryComp e qs => exact htemplate e qs
      all_goals simp [Expr.analysed, Expr.parts, List.map_flatMap, Function.comp_def]
  | pattern =>
      cases e
      all_goals simp [Expr.analysed, Expr.parts, List.map_flatMap, Function.comp_def]

theorem analysed_perm (reading : Reading) (p : Part) :
    ((p.analysed reading).map Prod.snd).Perm p.children := by
  cases p with
  | expr e => exact node_analysed_perm reading e.node
  | clause c => simp [analysed, children, Clause.parts, Function.comp_def]

/-- The number of parts among `ps` and inside them. -/
def weight (ps : List (Reading × Part)) : Nat := ((ps.map Prod.snd).flatMap visits).length

theorem weight_cons (q : Reading × Part) (ps : List (Reading × Part)) :
    weight (q :: ps) = weight (q.2.analysed q.1) + weight ps + 1 := by
  have hinside := (((analysed_perm q.1 q.2).flatMap_right visits).length_eq)
  simp only [weight, List.map_cons, List.flatMap_cons, visits_eq q.2, hinside, List.length_append,
    List.length_cons]
  omega

/-- The parts and all inside them, in the order in which the analysis meets them. -/
def inOrder : List (Reading × Part) → List Part
  | [] => []
  | (reading, p) :: ps => p :: (inOrder (p.analysed reading) ++ inOrder ps)
termination_by ps => weight ps
decreasing_by
  all_goals
    rw [weight_cons]
    dsimp only
    omega

/-- The analysis meets all there is. -/
theorem inOrder_perm (ps : List (Reading × Part)) :
    (inOrder ps).Perm ((ps.map Prod.snd).flatMap visits) := by
  fun_induction inOrder ps with
  | case1 => exact .refl _
  | case2 reading p ps hinside hbehind =>
      rw [List.map_cons, List.flatMap_cons, visits_eq, List.cons_append]
      refine .cons p (.append ?_ hbehind)
      exact hinside.trans ((analysed_perm reading p).flatMap_right visits)

/-- The span of a use of a macro. -/
def macroSpan? : Part → Option Span
  | expr ⟨.macroUse _ _, span⟩ => some span
  | _ => none

/-- The span of the first macro that the analysis meets. -/
def firstMacro? (ps : List (Reading × Part)) : Option Span := (inOrder ps).findSome? macroSpan?

end Part

/-! ### The first fault -/

def ScopeEvent.fault? : ScopeEvent → Option AnalysisError
  | .unclassified what span => some ⟨what, span⟩
  | _ => none

namespace FreeVariables

open ScopeEvent

/-- What keeps the events from being run, in their order. -/
def faults (events : List ScopeEvent) : List AnalysisError := events.filterMap fault?

@[simp] theorem faults_nil : faults [] = [] := rfl

@[simp] theorem faults_append (events more : List ScopeEvent) :
    faults (events ++ more) = faults events ++ faults more := List.filterMap_append

/-- A frame adds no fault. -/
@[simp] theorem faults_framed (events : List ScopeEvent) :
    faults (framed events) = faults events := by
  simp [framed, faults, List.filterMap_cons, fault?]

@[simp] theorem faults_framedIn (reading : Reading) (events : List ScopeEvent) :
    faults (framedIn reading events) = faults events := by
  cases reading with
  | value => exact faults_framed events
  | pattern => rfl

@[simp] theorem faults_occurrence (reading : Reading) (name : String) (span : Span) :
    faults (occurrence reading name span) = [] := by cases reading <;> rfl

@[simp] theorem faults_funName (reading : Reading) (name : Option String) (span : Span) :
    faults (funName reading name span) = [] := by cases reading <;> cases name <;> rfl

/-- Whatever the frames are, the run fails at the first fault and nowhere else. -/
theorem run_eq_error_iff (events : List ScopeEvent) (p : Progress) (err : AnalysisError) :
    events.foldlM Progress.run p = .error err ↔ (faults events).head? = some err := by
  induction events generalizing p with
  | nil => simp [pure, Except.pure]
  | cons event events ih =>
      rw [List.foldlM_cons]
      have hstep (q : Progress) (hq : p.run event = .ok q) (hfault : event.fault? = none) :
          (p.run event >>= fun q => events.foldlM Progress.run q) = .error err ↔
            (faults (event :: events)).head? = some err := by
        rw [hq, faults, List.filterMap_cons_none hfault]
        exact ih q
      cases event with
      | enter => exact hstep _ rfl rfl
      | leave => exact hstep _ rfl rfl
      | bind name span =>
          by_cases h : name = "_" || p.scope.contains name
          · exact hstep _ (if_pos h) rfl
          · exact hstep _ (if_neg h) rfl
      | refer name span =>
          by_cases h : name = "_" || p.scope.contains name
          · exact hstep _ (if_pos h) rfl
          · exact hstep _ (if_neg h) rfl
      | unclassified what span =>
          have hfail : (p.run (.unclassified what span) >>= fun q => events.foldlM Progress.run q) =
              .error ⟨what, span⟩ := rfl
          simp [hfail, faults, fault?]

/-- The analysis fails at the first node that cannot be told, and only there. -/
theorem ofEvents_eq_error_iff (events : List ScopeEvent) (err : AnalysisError) :
    ofEvents events = .error err ↔ (faults events).head? = some err := by
  rw [← run_eq_error_iff events Progress.initial, ofEvents]
  cases events.foldlM Progress.run Progress.initial <;> simp [Except.map]

/-! ### Faults of the parts of a tree -/

/-- The faults of a part. -/
def partFaults : Reading × Part → List AnalysisError
  | (reading, .expr e) => faults (expr reading e)
  | (reading, .clause c) => faults (clauses reading [c])

variable (reading : Reading)

@[simp] theorem partFaults_expr (e : Located Expr) :
    partFaults (reading, .expr e) = faults (expr reading e) := rfl

theorem faults_exprs (es : List (Located Expr)) :
    faults (exprs reading es) = es.flatMap fun e => partFaults (reading, .expr e) := by
  induction es with
  | nil => rfl
  | cons e es ih => simp [exprs, ih, partFaults]

theorem faults_optional (e : Option (Located Expr)) :
    faults (optional reading e) = e.toList.flatMap fun e => partFaults (reading, .expr e) := by
  cases e <;> simp [optional, partFaults]

theorem faults_guards (gs : List (List (Located Expr))) :
    faults (guards reading gs) = gs.flatten.flatMap fun e => partFaults (reading, .expr e) := by
  induction gs with
  | nil => rfl
  | cons g gs ih => simp [guards, ih, faults_exprs]

theorem faults_clauses (cs : List (Located Clause)) :
    faults (clauses reading cs) = (cs.map fun c => (reading, .clause c)).flatMap partFaults := by
  induction cs with
  | nil => rfl
  | cons c cs ih =>
      obtain ⟨⟨ps, gs, body⟩, s⟩ := c
      simp [clauses, ih, partFaults]

theorem faults_segments (ss : List Segment) :
    faults (segments reading ss) = ((Expr.binary ss).analysed reading).flatMap partFaults := by
  induction ss with
  | nil => cases reading <;> rfl
  | cons s ss ih =>
      obtain ⟨value, size, types⟩ := s
      simp only [Expr.analysed] at ih
      simp [segments, ih, Expr.analysed, faults_optional, partFaults, List.flatMap_map]

theorem faults_mapFields (fs : List MapField) :
    faults (mapFields reading fs) = ((Expr.map none fs).analysed reading).flatMap partFaults := by
  induction fs with
  | nil => cases reading <;> rfl
  | cons f fs ih =>
      obtain ⟨key, op, value⟩ := f
      simp only [Expr.analysed] at ih
      simp [mapFields, ih, Expr.analysed, partFaults]

theorem faults_recordFields (fs : List RecordField) :
    faults (recordFields reading fs) = fs.flatMap fun f => partFaults (reading, .expr f.value) := by
  induction fs with
  | nil => rfl
  | cons f fs ih =>
      obtain ⟨name, value⟩ := f
      simp [recordFields, ih, partFaults]

theorem faults_qualifiers_value (qs : List Qualifier) :
    faults (qualifiers .value qs) = (qs.flatMap Qualifier.analysed).flatMap partFaults := by
  induction qs with
  | nil => rfl
  | cons q qs ih => cases q <;> simp [qualifiers, matching, ih, Qualifier.analysed, partFaults]

theorem faults_qualifiers_pattern (qs : List Qualifier) :
    faults (qualifiers .pattern qs) =
      (qs.flatMap Qualifier.exprs).flatMap fun e => partFaults (.pattern, .expr e) := by
  induction qs with
  | nil => rfl
  | cons q qs ih => cases q <;> simp [qualifiers, matching, ih, Qualifier.exprs, partFaults]

theorem faults_after (a : Option After) :
    faults (after reading a) =
      (a.toList.flatMap fun x => x.timeout :: x.body).flatMap fun e =>
        partFaults (reading, .expr e) := by
  rcases a with _ | ⟨timeout, body⟩
  · rfl
  · simp [after, faults_exprs, partFaults]

/-- The faults of a node other than a macro are those of its parts in the order of the analysis. -/
theorem faults_node (span : Span) (e : Expr) (h : Part.macroSpan? (.expr ⟨e, span⟩) = none) :
    faults (node reading span e) = (e.analysed reading).flatMap partFaults := by
  have hmap (base : Option (Located Expr)) (fs : List MapField) :
      (Expr.map base fs).analysed reading =
        (base.toList.map fun e => (.value, .expr e)) ++ (Expr.map none fs).analysed reading := by
    cases reading <;> rfl
  cases e
  case macroUse name args => cases h
  case map base fs =>
    simp [node, faults_optional, faults_mapFields, hmap base fs, List.flatMap_map]
  case binary ss => exact faults_segments reading ss
  all_goals cases reading
  all_goals simp [node, Expr.analysed, Expr.parts, faults_exprs, faults_optional, faults_clauses,
    faults_recordFields, faults_qualifiers_value, faults_qualifiers_pattern, faults_after, matching,
    comprehension, List.flatMap_map]

variable {reading}

/-- A macro is a fault, and nothing inside it is looked at. -/
theorem partFaults_of_some {p : Part} {span : Span} (h : p.macroSpan? = some span) :
    partFaults (reading, p) = [⟨.macroUse, span⟩] := by
  rcases p with ⟨e, s⟩ | c
  · cases e <;> cases h
    rfl
  · cases h

/-- The faults of any other part are those of what is analysed inside it. -/
theorem partFaults_of_none {p : Part} (h : p.macroSpan? = none) :
    partFaults (reading, p) = (p.analysed reading).flatMap partFaults := by
  rcases p with ⟨e, span⟩ | ⟨⟨ps, gs, body⟩, span⟩
  · exact faults_node reading span e h
  · simp [partFaults, clauses, Part.analysed, faults_exprs, faults_guards, List.flatMap_map,
      -List.map_flatten]

/-- The first of the faults of parts is the first macro among them and in them. -/
theorem head?_partFaults (ps : List (Reading × Part)) :
    (ps.flatMap partFaults).head? = (Part.firstMacro? ps).map (AnalysisError.mk .macroUse) := by
  rw [Part.firstMacro?]
  fun_induction Part.inOrder ps with
  | case1 => rfl
  | case2 reading p ps hinside hbehind =>
      rw [List.flatMap_cons, List.head?_append, hbehind, List.findSome?_cons]
      cases h : p.macroSpan? with
      -- What is inside a macro comes behind it, so that it does not matter that no event stands for
      -- it.
      | some span => rw [partFaults_of_some h]; rfl
      | none =>
          rw [partFaults_of_none h, hinside, List.findSome?_append]
          cases (Part.inOrder (p.analysed reading)).findSome? Part.macroSpan? <;> rfl

theorem diagnostic_eq_iff (err : AnalysisError) (span : Span) :
    err.diagnostic = .analysis "macro" span ↔ err = ⟨.macroUse, span⟩ := by
  obtain ⟨what, s⟩ := err
  cases what <;> simp [AnalysisError.diagnostic, Unclassified.kindName]

/-! ### Where no macro is -/

/-- Nothing that is met is a macro. -/
theorem noMacros_iff (met : List Visited) :
    NoMacros met ↔ ∀ p ∈ Visited.parts met, p.macroSpan? = none := by
  constructor
  · intro h p hp
    obtain ⟨v, hv, hpart⟩ := List.mem_filterMap.mp hp
    cases v with
    | form f => cases hpart
    | clause c => cases hpart; rfl
    | qualifier q => cases hpart
    | expr e =>
        cases hpart
        obtain ⟨e, s⟩ := e
        cases e
        case macroUse name args => exact absurd hv (h name args s)
        all_goals rfl
  · intro h name args span hv
    have hmem : Part.expr ⟨.macroUse name args, span⟩ ∈ Visited.parts met :=
      List.mem_filterMap.mpr ⟨_, hv, rfl⟩
    cases h _ hmem

theorem firstMacro?_eq_none_iff {ps : List (Reading × Part)} {met : List Visited}
    (h : Visited.parts met = (ps.map Prod.snd).flatMap Part.visits) :
    Part.firstMacro? ps = none ↔ NoMacros met := by
  rw [noMacros_iff, h, Part.firstMacro?, List.findSome?_eq_none_iff]
  exact forall_congr' fun p => imp_congr_left (Part.inOrder_perm ps).mem_iff

/-- What the analysis of the parts `ps` gives, where `met` is all there is in them: an error exactly
if there is a macro, and then one that names the first macro. -/
structure FailsAtMacro (result : Except AnalysisError Names) (ps : List (Reading × Part))
    (met : List Visited) : Prop where
  isError_iff : (∃ err, result = .error err) ↔ ¬ NoMacros met
  eq_error_iff : ∀ err, result = .error err ↔
    ∃ span, Part.firstMacro? ps = some span ∧ err.diagnostic = .analysis "macro" span

theorem ofEvents_failsAtMacro {events : List ScopeEvent} {ps : List (Reading × Part)}
    {met : List Visited} (hfaults : faults events = ps.flatMap partFaults)
    (hmet : Visited.parts met = (ps.map Prod.snd).flatMap Part.visits) :
    FailsAtMacro (ofEvents events) ps met := by
  have heq (err : AnalysisError) : ofEvents events = .error err ↔
      ∃ span, Part.firstMacro? ps = some span ∧ err.diagnostic = .analysis "macro" span := by
    rw [ofEvents_eq_error_iff, hfaults, head?_partFaults, Option.map_eq_some_iff]
    refine exists_congr fun span => and_congr_right fun _ => ?_
    rw [diagnostic_eq_iff]
    exact eq_comm
  refine ⟨?_, heq⟩
  rw [← firstMacro?_eq_none_iff hmet, ← ne_eq, Option.ne_none_iff_exists']
  constructor
  · rintro ⟨err, herr⟩
    obtain ⟨span, hspan, -⟩ := (heq err).mp herr
    exact ⟨span, hspan⟩
  · rintro ⟨span, hspan⟩
    exact ⟨⟨.macroUse, span⟩, (heq _).mpr ⟨span, hspan, rfl⟩⟩

theorem faults_eq_nil_of_ok {events : List ScopeEvent} {names : Names}
    (h : ofEvents events = .ok names) :
    faults events = [] := by
  by_contra hne
  obtain ⟨err, rest, hcons⟩ := List.exists_cons_of_ne_nil hne
  have herr : ofEvents events = .error err := by rw [ofEvents_eq_error_iff, hcons, List.head?_cons]
  cases h.symm.trans herr

/-- Events with the same faults fail alike. -/
theorem ofEvents_eq_map {events more : List ScopeEvent} {f : Names → Names}
    (hfaults : faults events = faults more)
    (hok : ∀ names, ofEvents more = .ok names → ofEvents events = .ok (f names)) :
    ofEvents events = (ofEvents more).map f := by
  cases hmore : ofEvents more with
  | error err => rwa [Except.map, ofEvents_eq_error_iff, hfaults, ← ofEvents_eq_error_iff]
  | ok names => exact hok names hmore

theorem FailsAtMacro.noMacros {events : List ScopeEvent} {ps : List (Reading × Part)}
    {met : List Visited} (h : FailsAtMacro (ofEvents events) ps met)
    (hfaults : faults events = []) : NoMacros met := by
  by_contra hmacro
  obtain ⟨err, herr⟩ := h.isError_iff.mpr hmacro
  rw [ofEvents_eq_error_iff, hfaults] at herr
  cases herr

theorem expr_failsAtMacro (e : Located Expr) :
    FailsAtMacro (freeVariables e) [(.value, .expr e)] (Preorder.expr (fun _ => true) e) :=
  ofEvents_failsAtMacro (by simp) (by simp [Part.visits])

theorem clauses_failAtMacro (cs : List (Located Clause)) :
    FailsAtMacro (ofEvents (clauses .value cs)) (cs.map fun c => (.value, .clause c))
      (Preorder.clauses (fun _ => true) cs) := by
  apply ofEvents_failsAtMacro
  · exact faults_clauses .value cs
  · simp [parts_clauses, Function.comp_def]

/-- Without faults the analysis finds the free names of the scan. -/
theorem freeVariables_of_faults {e : Located Expr} (h : faults (expr .value e) = []) :
    freeVariables e = .ok (Scan.expr .value e ∅).1.sort :=
  (expr_represents .value e ((expr_failsAtMacro e).noMacros h)).ofEvents

theorem clauses_of_faults {cs : List (Located Clause)} (h : faults (clauses .value cs) = []) :
    ofEvents (clauses .value cs) = .ok (Scan.clauses .value cs ∅).1.sort :=
  (clauses_represents .value cs ((clauses_failAtMacro cs).noMacros h)).ofEvents

/-- The analysis of an expression or a function fails exactly if there is a macro in it, at whatever
depth, and then it names the first one in its order. -/
theorem freeVariables_failAtMacro :
    (∀ e : Located Expr, FailsAtMacro (freeVariables e) [(.value, .expr e)]
      (Preorder.expr (fun _ => true) e)) ∧
    (∀ (name : Located String) (arity : Nat) (cs : List (Located Clause)) (span : Span),
      FailsAtMacro (freeVariablesInForm ⟨.function name arity cs, span⟩)
        (cs.map fun c => (.value, .clause c))
        (Preorder.form (fun _ => true) ⟨.function name arity cs, span⟩)) := by
  refine ⟨expr_failsAtMacro, ?_⟩
  intro name arity cs span
  apply ofEvents_failsAtMacro
  · exact faults_clauses .value cs
  · simp [parts_form, Form.parts, Function.comp_def]

/-- Of `?A = ?B` the value is analysed first. -/
example (pattern value span : Span) :
    freeVariables ⟨.matchExpr ⟨.macroUse "A" none, pattern⟩ ⟨.macroUse "B" none, value⟩, span⟩ =
      .error ⟨.macroUse, value⟩ := rfl

end FreeVariables

end ErlangFragment
