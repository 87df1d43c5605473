import Mathlib.Data.Finset.Sort
import Mathlib.Data.String.Basic
import ErlangFragment.FreeVariables
import ErlangFragment.Tree.Preorder

/-! Free variables as a function on sets. A tree takes the set of visible names to the names that
are free in it and to the set of names visible behind it. The run on frames computes the same
set. -/

namespace ErlangFragment.FreeVariables

/-! ## The set semantics -/

/-- What a part of a tree does to a set of visible names: the names that are free in it, and the
names that are visible behind it. -/
abbrev Scan := Finset String → Finset String × Finset String

namespace Scan

/-- A part without variables. -/
def nothing : Scan := fun visible => (∅, visible)

/-- One part, and then another that sees what the first one has bound. -/
def andThen (s t : Scan) : Scan := fun visible =>
  ((s visible).1 ∪ (t (s visible).2).1, (t (s visible).2).2)

/-- A part outside of which nothing it binds is visible. -/
def discarding (s : Scan) : Scan := fun visible => ((s visible).1, visible)

/-- An occurrence of a variable: free if it is not visible, and visible from then on. -/
def occurrence (name : String) : Scan := fun visible =>
  if name = "_" then (∅, visible) else ({name} \ visible, insert name visible)

/-- A variable of a pattern. -/
def binding (name : String) : Scan := fun visible =>
  if name = "_" then (∅, visible) else (∅, insert name visible)

/-- The name of a fun, if it has one. -/
def naming (name : Option String) : Scan := fun visible =>
  match name with
  | none => (∅, visible)
  | some n => (∅, insert n visible)

/-- Discards what a value has bound. A pattern keeps it. -/
def discardingIn (reading : Reading) (s : Scan) : Scan :=
  match reading with
  | .value => s.discarding
  | .pattern => s

mutual

/-- The scan of a node. A pattern is scanned in the order of the source and binds every variable in
it, except that segment sizes, map keys and map bases are values. -/
def node (reading : Reading) : Expr → Scan
  | .integer _ | .float _ | .char _ | .string _ | .atom _ | .recordIndex _ _ => nothing
  | .var v =>
    match reading with
    | .value => occurrence v
    | .pattern => binding v
  | .tuple es => exprs reading es
  | .list es tail => (exprs reading es).andThen (optional reading tail)
  | .binary ss => segments reading ss
  | .map base fs => (optional .value base).andThen (mapFields reading fs)
  | .record base _ fs => (optional reading base).andThen (recordFields reading fs)
  | .recordAccess base _ _ => expr reading base
  | .matchExpr p v =>
    match reading with
    | .value => (expr .value v).andThen (expr .pattern p)
    | .pattern => (expr .pattern p).andThen (expr .pattern v)
  | .binaryOp _ a b => (expr reading a).andThen (expr reading b)
  | .unaryOp _ a => expr reading a
  | .call f args => (expr reading f).andThen (exprs reading args)
  | .remote m f => (expr reading m).andThen (expr reading f)
  | .block es => discardingIn reading (exprs reading es)
  | .caseExpr e cs => (expr reading e).andThen (clauses reading cs)
  | .ifExpr cs => clauses reading cs
  | .receiveExpr cs a => (clauses reading cs).andThen (after reading a)
  | .tryExpr es os cs a =>
    (discardingIn reading ((exprs reading es).andThen (clauses reading os))).andThen
      ((clauses reading cs).andThen (discardingIn reading (exprs reading a)))
  | .catchExpr e => expr reading e
  | .listComp e qs | .binaryComp e qs =>
    match reading with
    | .value => ((qualifiers .value qs).andThen (expr .value e)).discarding
    | .pattern => (expr .pattern e).andThen (qualifiers .pattern qs)
  | .funExpr name cs =>
    match reading with
    | .value => ((naming name).andThen (clauses .value cs)).discarding
    | .pattern => clauses .pattern cs
  | .funRef m f a => (optional reading m).andThen ((expr reading f).andThen (expr reading a))
  | .macroUse _ _ => nothing

def expr (reading : Reading) : Located Expr → Scan
  | ⟨e, _⟩ => node reading e

def exprs (reading : Reading) : List (Located Expr) → Scan
  | [] => nothing
  | e :: es => (expr reading e).andThen (exprs reading es)

def optional (reading : Reading) : Option (Located Expr) → Scan
  | none => nothing
  | some e => expr reading e

def guards (reading : Reading) : List (List (Located Expr)) → Scan
  | [] => nothing
  | g :: gs => (exprs reading g).andThen (guards reading gs)

def clauses (reading : Reading) : List (Located Clause) → Scan
  | [] => nothing
  | ⟨⟨ps, gs, body⟩, _⟩ :: cs =>
    (discardingIn reading
      ((exprs .pattern ps).andThen ((guards reading gs).andThen (exprs reading body)))).andThen
        (clauses reading cs)

def segments (reading : Reading) : List Segment → Scan
  | [] => nothing
  | ⟨value, size, _⟩ :: ss =>
    (expr reading value).andThen ((optional .value size).andThen (segments reading ss))

def mapFields (reading : Reading) : List MapField → Scan
  | [] => nothing
  | ⟨key, _, value⟩ :: fs =>
    (expr .value key).andThen ((expr reading value).andThen (mapFields reading fs))

def recordFields (reading : Reading) : List RecordField → Scan
  | [] => nothing
  | ⟨_, value⟩ :: fs => (expr reading value).andThen (recordFields reading fs)

def qualifiers (reading : Reading) : List Qualifier → Scan
  | [] => nothing
  | .generator p e :: qs | .binaryGenerator p e :: qs =>
    match reading with
    | .value => ((expr .value e).andThen (expr .pattern p)).andThen (qualifiers .value qs)
    | .pattern => ((expr .pattern p).andThen (expr .pattern e)).andThen (qualifiers .pattern qs)
  | .filter e :: qs => (expr reading e).andThen (qualifiers reading qs)

def after (reading : Reading) : Option After → Scan
  | none => nothing
  | some ⟨timeout, body⟩ =>
      (expr reading timeout).andThen (discardingIn reading (exprs reading body))

end

end Scan

/-! ## Sorted names -/

/-- The names after an insertion. -/
theorem Names.mem_insert (name x : String) (ns : Names) :
    x ∈ Names.insert name ns ↔ x = name ∨ x ∈ ns := by
  fun_induction Names.insert name ns with
  | case1 => simp
  | case2 n ns h => simp
  | case3 ns h => simp
  | case4 n ns h hne ih => simp only [List.mem_cons, ih]; tauto

theorem Names.sorted_insert (name : String) (ns : Names) (h : ns.Pairwise (· < ·)) :
    (Names.insert name ns).Pairwise (· < ·) := by
  fun_induction Names.insert name ns with
  | case1 => simp
  | case2 n ns hlt =>
    refine List.pairwise_cons.mpr ⟨?_, h⟩
    intro x hx
    rcases List.mem_cons.mp hx with rfl | hx
    · exact hlt
    · exact hlt.trans ((List.pairwise_cons.mp h).1 x hx)
  | case3 ns hlt => exact h
  | case4 n ns hlt hne ih =>
    obtain ⟨hn, hns⟩ := List.pairwise_cons.mp h
    refine List.pairwise_cons.mpr ⟨?_, ih hns⟩
    intro x hx
    rcases (Names.mem_insert name x ns).mp hx with rfl | hx
    · exact lt_of_le_of_ne (not_lt.mp hlt) (Ne.symm hne)
    · exact hn x hx

/-- Names in increasing order are those of their set in increasing order. -/
theorem Names.eq_sort {ns : Names} {names : Finset String} (h : ns.Pairwise (· < ·))
    (hset : ns.toFinset = names) : ns = names.sort := by
  rw [← hset, (List.toFinset_sort _ (h.imp ne_of_lt)).mpr (h.imp le_of_lt)]

/-- Insertion into the names of a set in increasing order. -/
theorem Names.insert_sort (name : String) (names : Finset String) :
    Names.insert name names.sort = (insert name names).sort := by
  apply Names.eq_sort
  · exact Names.sorted_insert name _ names.sortedLT_sort.pairwise
  · ext x
    simp [Names.mem_insert]

/-! ## Frames as sets -/

/-- Progress with the names of `visible` bound and those of `free` found free, inside the frames
`outer`. -/
structure Progress.Stands (p : Progress) (visible free : Finset String)
    (outer : List (Frame Span)) :
    Prop where
  frames : ∃ frame, p.scope.frames = frame :: outer
  visible : ∀ x, x ≠ "_" → (p.scope.contains x ↔ x ∈ visible)
  free : p.free = free.sort

theorem contains_push (s : Scope Span) (x : String) : s.push.contains x = s.contains x := by
  simp [Scope.contains, Scope.lookup?, Scope.push, List.findSome?_cons]

/-- The names in scope after an insertion. -/
theorem contains_insert (s : Scope Span) (name x : String) (span : Span) :
    (s.insert name span).contains x ↔ x = name ∨ s.contains x := by
  by_cases hx : x = name
  · subst hx
    rcases s with ⟨_ | ⟨f, fs⟩⟩ <;> simp [Scope.contains, Scope.lookup?, Scope.insert]
  · have hne : (x == name) = false := by simpa using hx
    rcases s with ⟨_ | ⟨f, fs⟩⟩ <;>
      simp [Scope.contains, Scope.lookup?, Scope.insert, List.findSome?_cons,
        List.lookup_cons, hx, hne]

namespace Progress

variable {p : Progress} {visible free : Finset String} {outer : List (Frame Span)}

theorem stands_initial : initial.Stands ∅ ∅ [] where
  frames := ⟨[], rfl⟩
  visible := by simp [initial, Scope.initial, Scope.contains, Scope.lookup?]
  free := by simp [initial]

theorem Stands.push (h : p.Stands visible free outer) :
    Stands { p with scope := p.scope.push } visible free p.scope.frames where
  frames := ⟨[], rfl⟩
  visible := by simpa [contains_push] using h.visible
  free := h.free

/-- Nothing that is bound in a frame outlives it. -/
theorem Stands.pop {q : Progress} {visible' free' : Finset String} (h : p.Stands visible free outer)
    (hq : q.Stands visible' free' p.scope.frames) :
    Stands { q with scope := q.scope.pop } visible free' outer := by
  obtain ⟨frame, hframe⟩ := hq.frames
  have hpop : q.scope.pop = p.scope := by simp [Scope.pop, hframe]
  exact ⟨by simpa [hpop] using h.frames, by simpa [hpop] using h.visible, hq.free⟩

/-- Binding a name makes it visible, and frees nothing. -/
theorem Stands.insert (h : p.Stands visible free outer) (name : String) (span : Span) :
    Stands { p with scope := p.scope.insert name span } (insert name visible) free outer where
  frames := by
    obtain ⟨frame, hframe⟩ := h.frames
    exact ⟨(name, span) :: frame, by simp [Scope.insert, hframe]⟩
  visible := by
    intro x hx
    simp only [contains_insert, h.visible x hx, Finset.mem_insert]
  free := h.free

/-- A name that is visible already, or that is `_`, need not be bound. -/
theorem Stands.insert_of_mem (h : p.Stands visible free outer) {name : String}
    (hname : name = "_" ∨ p.scope.contains name) :
    p.Stands (Insert.insert name visible) free outer where
  frames := h.frames
  visible := by
    intro x hx
    rw [h.visible x hx, Finset.mem_insert]
    refine ⟨Or.inr, ?_⟩
    rintro (rfl | hmem)
    · exact (h.visible x hx).mp (hname.resolve_left hx)
    · exact hmem
  free := h.free

/-- A free name is taken down, and nothing else changes. -/
theorem Stands.found (h : p.Stands visible free outer) (name : String) :
    Stands { p with free := Names.insert name p.free } visible (Insert.insert name free) outer where
  frames := h.frames
  visible := h.visible
  free := by simp only [h.free, Names.insert_sort]

/-- What the run of one event makes of the sets. -/
theorem Stands.run_bind (h : p.Stands visible free outer) (name : String) (span : Span) :
    ∃ q, p.run (.bind name span) = .ok q ∧ q.Stands (Insert.insert name visible) free outer := by
  by_cases hname : name = "_" ∨ p.scope.contains name
  · exact ⟨p, if_pos (by simpa using hname), h.insert_of_mem hname⟩
  · exact ⟨_, if_neg (by simpa using hname), h.insert name span⟩

end Progress

/-! ## The run on frames -/

/-- The run of the events from any progress makes of the sets what the scan does. -/
def Represents (events : List ScopeEvent) (s : Scan) : Prop :=
  ∀ (p : Progress) (visible free : Finset String) (outer : List (Frame Span)),
    p.Stands visible free outer →
      ∃ q, events.foldlM Progress.run p = .ok q ∧
        q.Stands (s visible).2 (free ∪ (s visible).1) outer

theorem represents_nil : Represents [] Scan.nothing := by
  intro p visible free outer h
  exact ⟨p, rfl, by simpa [Scan.nothing] using h⟩

/-- Events one after another are scans one after another. -/
theorem Represents.append {events more : List ScopeEvent} {s t : Scan} (hs : Represents events s)
    (ht : Represents more t) : Represents (events ++ more) (s.andThen t) := by
  intro p visible free outer h
  obtain ⟨q, hq, hstands⟩ := hs p visible free outer h
  obtain ⟨r, hr, hstands⟩ := ht q _ _ outer hstands
  refine ⟨r, ?_, ?_⟩
  · rw [List.foldlM_append, hq]
    exact hr
  · simpa [Scan.andThen, Finset.union_assoc] using hstands

/-- The free names of events that do what the scan does. -/
theorem Represents.ofEvents {events : List ScopeEvent} {s : Scan} (hs : Represents events s) :
    FreeVariables.ofEvents events = .ok (s ∅).1.sort := by
  obtain ⟨p, hrun, hstands⟩ := hs _ ∅ ∅ [] Progress.stands_initial
  have hfree : p.free = (s ∅).1.sort := by simpa using hstands.free
  rw [FreeVariables.ofEvents, hrun, ← hfree]
  rfl

/-- What is bound in a frame is gone behind it, and what is free stays. -/
theorem Represents.framed {events : List ScopeEvent} {s : Scan} (hs : Represents events s) :
    Represents (ScopeEvent.framed events) s.discarding := by
  intro p visible free outer h
  obtain ⟨q, hq, hstands⟩ := hs _ visible free _ h.push
  refine ⟨{ q with scope := q.scope.pop }, ?_, h.pop hstands⟩
  rw [ScopeEvent.framed, List.cons_append, List.foldlM_cons, Progress.run]
  change List.foldlM Progress.run _ (events ++ [ScopeEvent.leave]) = _
  rw [List.foldlM_append, hq]
  rfl

theorem Represents.framedIn {events : List ScopeEvent} {s : Scan} (hs : Represents events s)
    (reading : Reading) :
    Represents (ScopeEvent.framedIn reading events) (Scan.discardingIn reading s) := by
  cases reading with
  | value => exact hs.framed
  | pattern => exact hs

theorem represents_binding (name : String) (span : Span) :
    Represents [.bind name span] (Scan.binding name) := by
  intro p visible free outer h
  by_cases hname : name = "_"
  · exact ⟨p, by simp [Progress.run, hname], by simpa [Scan.binding, hname] using h⟩
  · obtain ⟨q, hq, hstands⟩ := h.run_bind name span
    exact ⟨q, by simp [hq], by simpa [Scan.binding, hname] using hstands⟩

theorem represents_naming (name : Option String) (span : Span) :
    Represents (ScopeEvent.funName .value name span) (Scan.naming name) := by
  cases name with
  | none => exact represents_nil
  | some n =>
    intro p visible free outer h
    obtain ⟨q, hq, hstands⟩ := h.run_bind n span
    exact ⟨q, by simp [ScopeEvent.funName, hq], by simpa [Scan.naming] using hstands⟩

theorem represents_occurrence (name : String) (span : Span) :
    Represents [.refer name span] (Scan.occurrence name) := by
  intro p visible free outer h
  by_cases hname : name = "_"
  · exact ⟨p, by simp [Progress.run, hname], by simpa [Scan.occurrence, hname] using h⟩
  have hvisible := h.visible name hname
  by_cases hmem : name ∈ visible
  · have hcontains := hvisible.mpr hmem
    have hnone : ({name} : Finset String) \ visible = ∅ := by simpa using hmem
    refine ⟨p, by simp [Progress.run, hcontains], ?_⟩
    simpa [Scan.occurrence, hname, hnone, hmem] using h
  · have hcontains : p.scope.contains name = false := by simpa using mt hvisible.mp hmem
    have hself : ({name} : Finset String) \ visible = {name} := by simpa using hmem
    refine ⟨⟨p.scope.insert name span, Names.insert name p.free⟩, ?_, ?_⟩
    · simp [Progress.run, hname, hcontains]
    · have hunion : free ∪ {name} = insert name free := by rw [Finset.union_comm, Finset.insert_eq]
      simp only [Scan.occurrence, hname, if_false, hself, hunion]
      exact (h.insert name span).found name

/-! ## Trees without macros -/

/-- A traversal that meets no use of a macro. -/
def NoMacros (met : List Visited) : Prop :=
  ∀ name args span, Visited.expr ⟨.macroUse name args, span⟩ ∉ met

theorem NoMacros.append {met more : List Visited} (h : NoMacros (met ++ more)) :
    NoMacros met ∧ NoMacros more := by
  constructor
  · intro name args span hmem
    exact h name args span (List.mem_append_left _ hmem)
  · intro name args span hmem
    exact h name args span (List.mem_append_right _ hmem)

theorem NoMacros.inside {v : Visited} {inside : List Visited}
    (h : NoMacros (Preorder.meet (fun _ => true) v inside)) : NoMacros inside := by
  intro name args span hmem
  exact h name args span (List.mem_cons_of_mem _ hmem)

mutual

/-- The events of a node are its scan. Macros are left out, since a scan has no errors. -/
theorem node_represents (reading : Reading) (span : Span) : ∀ e : Expr,
    NoMacros (Preorder.expr (fun _ => true) ⟨e, span⟩) →
      Represents (node reading span e) (Scan.node reading e)
  | .integer _, _ | .float _, _ | .char _, _ | .string _, _ | .atom _, _ | .recordIndex _ _, _ =>
    represents_nil
  | .var v, _ => by
    cases reading with
    | value => exact represents_occurrence v span
    | pattern => exact represents_binding v span
  | .tuple es, h => exprs_represents reading es h.inside
  | .list es tail, h =>
    (exprs_represents reading es h.inside.append.1).append
      (optional_represents reading tail h.inside.append.2)
  | .binary ss, h => segments_represents reading ss h.inside
  | .map base fs, h =>
    (optional_represents .value base h.inside.append.1).append
      (mapFields_represents reading fs h.inside.append.2)
  | .record base _ fs, h =>
    (optional_represents reading base h.inside.append.1).append
      (recordFields_represents reading fs h.inside.append.2)
  | .recordAccess base _ _, h => expr_represents reading base h.inside
  | .matchExpr p v, h => by
    have hp := expr_represents .pattern p h.inside.append.1
    have hv := expr_represents reading v h.inside.append.2
    cases reading with
    | value => exact hv.append hp
    | pattern => exact hp.append hv
  | .binaryOp _ a b, h =>
    (expr_represents reading a h.inside.append.1).append
      (expr_represents reading b h.inside.append.2)
  | .unaryOp _ a, h => expr_represents reading a h.inside
  | .call f args, h =>
    (expr_represents reading f h.inside.append.1).append
      (exprs_represents reading args h.inside.append.2)
  | .remote m f, h =>
    (expr_represents reading m h.inside.append.1).append
      (expr_represents reading f h.inside.append.2)
  | .block es, h => (exprs_represents reading es h.inside).framedIn reading
  | .caseExpr e cs, h =>
    (expr_represents reading e h.inside.append.1).append
      (clauses_represents reading cs h.inside.append.2)
  | .ifExpr cs, h => clauses_represents reading cs h.inside
  | .receiveExpr cs a, h =>
    (clauses_represents reading cs h.inside.append.1).append
      (after_represents reading a h.inside.append.2)
  | .tryExpr es os cs a, h => by
    obtain ⟨hbody, ha⟩ := h.inside.append
    obtain ⟨hbody, hcs⟩ := hbody.append
    obtain ⟨hes, hos⟩ := hbody.append
    have hcaught := (exprs_represents reading es hes).append (clauses_represents reading os hos)
    have hafter := (exprs_represents reading a ha).framedIn reading
    rw [node, List.append_assoc]
    exact (hcaught.framedIn reading).append ((clauses_represents reading cs hcs).append hafter)
  | .catchExpr e, h => expr_represents reading e h.inside
  | .listComp e qs, h | .binaryComp e qs, h => by
    have he := expr_represents reading e h.inside.append.1
    have hqs := qualifiers_represents reading qs h.inside.append.2
    cases reading with
    | value => exact (hqs.append he).framed
    | pattern => exact he.append hqs
  | .funExpr name cs, h => by
    have hcs := clauses_represents reading cs h.inside
    cases reading with
    | value => exact ((represents_naming name span).append hcs).framed
    | pattern => cases name <;> exact hcs
  | .funRef m f a, h => by
    obtain ⟨hmf, ha⟩ := h.inside.append
    obtain ⟨hm, hf⟩ := hmf.append
    rw [node, List.append_assoc]
    exact (optional_represents reading m hm).append
      ((expr_represents reading f hf).append (expr_represents reading a ha))
  | .macroUse name args, h => absurd List.mem_cons_self (h name args span)

theorem expr_represents (reading : Reading) : ∀ e : Located Expr,
    NoMacros (Preorder.expr (fun _ => true) e) → Represents (expr reading e) (Scan.expr reading e)
  | ⟨e, span⟩, h => node_represents reading span e h

theorem exprs_represents (reading : Reading) : ∀ es : List (Located Expr),
    NoMacros (Preorder.exprs (fun _ => true) es) →
      Represents (exprs reading es) (Scan.exprs reading es)
  | [], _ => represents_nil
  | e :: es, h =>
    (expr_represents reading e h.append.1).append (exprs_represents reading es h.append.2)

theorem optional_represents (reading : Reading) : ∀ e : Option (Located Expr),
    NoMacros (Preorder.optional (fun _ => true) e) →
      Represents (optional reading e) (Scan.optional reading e)
  | none, _ => represents_nil
  | some e, h => expr_represents reading e h

theorem guards_represents (reading : Reading) : ∀ gs : List (List (Located Expr)),
    NoMacros (Preorder.guards (fun _ => true) gs) →
      Represents (guards reading gs) (Scan.guards reading gs)
  | [], _ => represents_nil
  | g :: gs, h =>
    (exprs_represents reading g h.append.1).append (guards_represents reading gs h.append.2)

theorem clauses_represents (reading : Reading) : ∀ cs : List (Located Clause),
    NoMacros (Preorder.clauses (fun _ => true) cs) →
      Represents (clauses reading cs) (Scan.clauses reading cs)
  | [], _ => represents_nil
  | ⟨⟨ps, gs, body⟩, s⟩ :: cs, h => by
    obtain ⟨hc, hcs⟩ := h.append
    obtain ⟨hhead, hbody⟩ := hc.inside.append
    obtain ⟨hps, hgs⟩ := hhead.append
    have hclause := (exprs_represents .pattern ps hps).append
      ((guards_represents reading gs hgs).append (exprs_represents reading body hbody))
    rw [clauses, List.append_assoc]
    exact (hclause.framedIn reading).append (clauses_represents reading cs hcs)

theorem segments_represents (reading : Reading) : ∀ ss : List Segment,
    NoMacros (Preorder.segments (fun _ => true) ss) →
      Represents (segments reading ss) (Scan.segments reading ss)
  | [], _ => represents_nil
  | ⟨value, size, types⟩ :: ss, h => by
    obtain ⟨hs, hss⟩ := h.append
    obtain ⟨hvalue, hsize⟩ := hs.append
    rw [segments, List.append_assoc]
    exact (expr_represents reading value hvalue).append
      ((optional_represents .value size hsize).append (segments_represents reading ss hss))

theorem mapFields_represents (reading : Reading) : ∀ fs : List MapField,
    NoMacros (Preorder.mapFields (fun _ => true) fs) →
      Represents (mapFields reading fs) (Scan.mapFields reading fs)
  | [], _ => represents_nil
  | ⟨key, op, value⟩ :: fs, h => by
    obtain ⟨hf, hfs⟩ := h.append
    obtain ⟨hkey, hvalue⟩ := hf.append
    rw [mapFields, List.append_assoc]
    exact (expr_represents .value key hkey).append
      ((expr_represents reading value hvalue).append (mapFields_represents reading fs hfs))

theorem recordFields_represents (reading : Reading) : ∀ fs : List RecordField,
    NoMacros (Preorder.recordFields (fun _ => true) fs) →
      Represents (recordFields reading fs) (Scan.recordFields reading fs)
  | [], _ => represents_nil
  | ⟨_, value⟩ :: fs, h =>
    (expr_represents reading value h.append.1).append
      (recordFields_represents reading fs h.append.2)

theorem qualifiers_represents (reading : Reading) : ∀ qs : List Qualifier,
    NoMacros (Preorder.qualifiers (fun _ => true) qs) →
      Represents (qualifiers reading qs) (Scan.qualifiers reading qs)
  | [], _ => represents_nil
  | .generator p e :: qs, h | .binaryGenerator p e :: qs, h => by
    have hp := expr_represents .pattern p h.append.1.inside.append.1
    have he := expr_represents reading e h.append.1.inside.append.2
    have hqs := qualifiers_represents reading qs h.append.2
    cases reading with
    | value => exact (he.append hp).append hqs
    | pattern => exact (hp.append he).append hqs
  | .filter e :: qs, h =>
    (expr_represents reading e h.append.1.inside).append
      (qualifiers_represents reading qs h.append.2)

theorem after_represents (reading : Reading) : ∀ a : Option After,
    NoMacros (Preorder.after (fun _ => true) a) →
      Represents (after reading a) (Scan.after reading a)
  | none, _ => represents_nil
  | some ⟨timeout, body⟩, h =>
    (expr_represents reading timeout h.append.1).append
      ((exprs_represents reading body h.append.2).framedIn reading)

end

/-- The run on frames computes the set semantics of every tree without macros: it succeeds, and
gives the free names of the scan from no visible names, in increasing order. -/
theorem freeVariables_eq_scan (e : Located Expr) (h : NoMacros (Preorder.expr (fun _ => true) e)) :
    freeVariables e = .ok (Scan.expr .value e ∅).1.sort :=
  (expr_represents .value e h).ofEvents

/-- The match `#{K := V} = M`, whose key refers to a value. -/
def keyedMatch : Located Expr :=
  ⟨.matchExpr ⟨.map none [⟨⟨.var "K", .nowhere⟩, .exact, ⟨.var "V", .nowhere⟩⟩], .nowhere⟩
    ⟨.var "M", .nowhere⟩, .nowhere⟩

theorem freeVariables_keyedMatch :
    NoMacros (Preorder.expr (fun _ => true) keyedMatch) ∧
      freeVariables keyedMatch = .ok (Scan.expr .value keyedMatch ∅).1.sort ∧
      (Scan.expr .value keyedMatch ∅).1 = {"M", "K"} := by
  have h : NoMacros (Preorder.expr (fun _ => true) keyedMatch) := by
    intro name args span hmem
    simp [keyedMatch, Preorder.expr, Preorder.node, Preorder.mapFields, Preorder.optional,
      Preorder.meet] at hmem
  refine ⟨h, freeVariables_eq_scan keyedMatch h, ?_⟩
  simp [keyedMatch, Scan.expr, Scan.node, Scan.mapFields, Scan.optional, Scan.andThen, Scan.nothing,
    Scan.occurrence, Scan.binding]

end ErlangFragment.FreeVariables
