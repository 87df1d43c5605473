import ErlangFragment.Tree.Preorder
import ErlangFragment.Tree.Rewriting

/-! What traversals meet. The reading one and the rewriting one meet the same expressions and
clauses: all that the tree has, each of them once and before what is inside it. -/

namespace ErlangFragment

/-- What trees are made of. -/
inductive Part
  | expr (e : Located Expr)
  | clause (c : Located Clause)

/-! ### Places in a tree -/

def Qualifier.exprs : Qualifier → List (Located Expr)
  | generator p e => [p, e]
  | binaryGenerator p e => [p, e]
  | filter e => [e]

/-- The expressions and clauses right below the node, in the order of the source. -/
def Expr.parts : Expr → List Part
  | integer _ | float _ | char _ | string _ | atom _ | var _ | recordIndex _ _ => []
  | tuple es => es.map .expr
  | list es tail => (es ++ tail.toList).map .expr
  | binary ss => (ss.flatMap fun s => s.value :: s.size.toList).map .expr
  | map base fs => (base.toList ++ fs.flatMap fun f => [f.key, f.value]).map .expr
  | record base _ fs => (base.toList ++ fs.map RecordField.value).map .expr
  | recordAccess base _ _ => [.expr base]
  | matchExpr p v => [.expr p, .expr v]
  | binaryOp _ a b => [.expr a, .expr b]
  | unaryOp _ a => [.expr a]
  | call f args => .expr f :: args.map .expr
  | remote m f => [.expr m, .expr f]
  | block es => es.map .expr
  | caseExpr e cs => .expr e :: cs.map .clause
  | ifExpr cs => cs.map .clause
  | receiveExpr cs a => cs.map .clause ++ (a.toList.flatMap fun x => x.timeout :: x.body).map .expr
  | tryExpr es os cs a => es.map .expr ++ (os ++ cs).map .clause ++ a.map .expr
  | catchExpr e => [.expr e]
  | listComp e qs => .expr e :: (qs.flatMap Qualifier.exprs).map .expr
  | binaryComp e qs => .expr e :: (qs.flatMap Qualifier.exprs).map .expr
  | funExpr _ cs => cs.map .clause
  | funRef m f a => (m.toList ++ [f, a]).map .expr
  | macroUse _ args => (args.getD []).map .expr

def Clause.parts (c : Clause) : List Part := (c.patterns ++ c.guards.flatten ++ c.body).map .expr

def Form.parts : Form → List Part
  | .function _ _ cs => cs.map .clause
  | .attribute _ (.exprs args) => args.map .expr
  | .attribute _ (.tokens _) => []

namespace Part

/-- The parts right below. -/
def children : Part → List Part
  | expr e => e.node.parts
  | clause c => c.node.parts

/-- The part that the numbers of children lead to. -/
def descend (p : Part) : List Nat → Option Part
  | [] => some p
  | i :: place => p.children[i]?.bind (descend · place)

/-- The part at a place, which is the number of one of `ps` and then the numbers of children on the
way down. -/
def at? (ps : List Part) : List Nat → Option Part
  | [] => none
  | i :: place => ps[i]?.bind (descend · place)

/-- The sequence has what stands at each place below `ps`, once for every place and in their order:
what is above comes first, and then what is to the left. -/
def IsPreorder (ps seq : List Part) : Prop :=
  ∃ places : List (List Nat), places.Pairwise (· < ·) ∧ (∀ q, q ∈ places ↔ (at? ps q).isSome) ∧
    places.map (at? ps) = seq.map some

/-- The place as it is called behind one more part. -/
def shifted : List Nat → List Nat
  | [] => []
  | i :: place => (i + 1) :: place

variable {p : Part} {ps seq inside : List Part} {q r : List Nat} {i : Nat}

@[simp] theorem shifted_eq_nil : shifted q = [] ↔ q = [] := by cases q <;> simp [shifted]

@[simp] theorem shifted_ne_zero_cons : shifted q ≠ 0 :: r := by cases q <;> simp [shifted]

@[simp] theorem shifted_eq_succ_cons : shifted q = (i + 1) :: r ↔ q = i :: r := by
  cases q <;> simp [shifted]

theorem ne_nil_of_isSome (h : (at? ps q).isSome) : q ≠ [] := by
  rintro rfl
  cases h

/-- Places inside the first part. -/
theorem at?_below (hq : q ≠ []) : at? (p :: ps) (0 :: q) = at? p.children q := by
  obtain ⟨i, q, rfl⟩ := List.exists_cons_of_ne_nil hq
  rfl

/-- Places behind the first part. -/
theorem at?_shifted (hq : q ≠ []) : at? (p :: ps) (shifted q) = at? ps q := by
  obtain ⟨i, q, rfl⟩ := List.exists_cons_of_ne_nil hq
  rfl

theorem shifted_lt_shifted (hq : q ≠ []) (h : q < r) : shifted q < shifted r := by
  obtain ⟨i, q, rfl⟩ := List.exists_cons_of_ne_nil hq
  cases r with
  | nil => cases h
  | cons j r => simpa [shifted, List.cons_lt_cons_iff] using h

theorem zero_cons_lt_shifted (hr : r ≠ []) : 0 :: q < shifted r := by
  obtain ⟨j, r, rfl⟩ := List.exists_cons_of_ne_nil hr
  simp [shifted, List.cons_lt_cons_iff]

theorem isPreorder_nil : IsPreorder [] [] := by
  refine ⟨[], .nil, fun q => ?_, rfl⟩
  cases q <;> simp [at?]

/-- A part comes before those inside it, and these before those behind it. -/
theorem IsPreorder.cons (hinside : IsPreorder p.children inside) (hseq : IsPreorder ps seq) :
    IsPreorder (p :: ps) (p :: (inside ++ seq)) := by
  obtain ⟨below, hbelow, hmemBelow, hpartsBelow⟩ := hinside
  obtain ⟨behind, hbehind, hmemBehind, hpartsBehind⟩ := hseq
  have hneBelow (q) (hq : q ∈ below) : q ≠ [] := ne_nil_of_isSome ((hmemBelow q).mp hq)
  have hneBehind (q) (hq : q ∈ behind) : q ≠ [] := ne_nil_of_isSome ((hmemBehind q).mp hq)
  -- The new part is at `[0]`, those inside it go on from there, and the others have moved on by
  -- one.
  refine ⟨[0] :: (below.map (0 :: ·) ++ behind.map shifted), ?sorted, ?complete, ?parts⟩
  case sorted =>
    refine .cons ?_ (List.pairwise_append.mpr ⟨?_, ?_, ?_⟩)
    · simp only [List.mem_append, List.mem_map]
      rintro _ (⟨q, hq, rfl⟩ | ⟨q, hq, rfl⟩)
      · obtain ⟨i, q, rfl⟩ := List.exists_cons_of_ne_nil (hneBelow q hq)
        simp
      · exact zero_cons_lt_shifted (hneBehind q hq)
    · exact List.pairwise_map.mpr (hbelow.imp fun h => List.cons_lt_cons_iff.mpr (.inr ⟨rfl, h⟩))
    · refine List.pairwise_map.mpr (hbehind.imp_of_mem fun hq _ h =>
        shifted_lt_shifted (hneBehind _ hq) h)
    · simp only [List.mem_map]
      rintro _ ⟨q, -, rfl⟩ _ ⟨r, hr, rfl⟩
      exact zero_cons_lt_shifted (hneBehind r hr)
  case complete =>
    intro q
    rcases q with _ | ⟨_ | i, q⟩
    · have hnil : [] ∉ behind := fun h => hneBehind [] h rfl
      simp [at?, hnil]
    · by_cases hq : q = []
      · subst hq
        simp [at?, descend]
      · rw [at?_below hq, ← hmemBelow]
        simp [hq]
    · have hat : at? (p :: ps) ((i + 1) :: q) = at? ps (i :: q) := rfl
      rw [hat, ← hmemBehind]
      simp
  case parts =>
    have hzero : at? (p :: ps) [0] = some p := rfl
    rw [List.map_cons, hzero, List.map_append, List.map_map, List.map_map, List.map_cons,
      List.map_append, ← hpartsBelow, ← hpartsBehind]
    congr 2
    · exact List.map_congr_left fun q hq => at?_below (hneBelow q hq)
    · exact List.map_congr_left fun q hq => at?_shifted (hneBehind q hq)

end Part

/-! ### What the two traversals meet -/

def Visited.part? : Visited → Option Part
  | expr e => some (.expr e)
  | clause c => some (.clause c)
  | form _ => none
  | qualifier _ => none

/-- The expressions and clauses among what is met. -/
def Visited.parts (vs : List Visited) : List Part := vs.filterMap part?

section

variable (vs ws : List Visited)

@[simp] theorem Visited.parts_nil : Visited.parts [] = [] := rfl

@[simp] theorem Visited.parts_append :
    Visited.parts (vs ++ ws) = Visited.parts vs ++ Visited.parts ws :=
  List.filterMap_append

@[simp] theorem Visited.parts_expr (e : Located Expr) :
    Visited.parts (.expr e :: vs) = .expr e :: Visited.parts vs :=
  rfl

@[simp] theorem Visited.parts_clause (c : Located Clause) :
    Visited.parts (.clause c :: vs) = .clause c :: Visited.parts vs := rfl

@[simp] theorem Visited.parts_form (f : Located Form) :
    Visited.parts (.form f :: vs) = Visited.parts vs := rfl

@[simp] theorem Visited.parts_qualifier (q : Qualifier) :
    Visited.parts (.qualifier q :: vs) = Visited.parts vs := rfl

end

/-- The rewriting that changes nothing and takes down what it meets. -/
def recorder : Rewriter (StateM (List Part)) :=
  { Rewriter.identity with
    meetExpr := fun e => modify (· ++ [.expr e])
    meetClause := fun c => modify (· ++ [.clause c]) }

section

variable {α β : Type}

/-- The rewriting takes down the expressions and clauses among `vs`. -/
def Records (m : StateM (List Part) α) (a : α) (vs : List Visited) : Prop :=
  ∀ log, m.run log = (a, log ++ Visited.parts vs)

namespace Records

theorem pure (a : α) : Records (pure a) a [] :=
  fun log => congrArg (Prod.mk a) (List.append_nil log).symm

/-- One rewriting after another takes down what the first and then the second one meets. -/
theorem bind {m : StateM (List Part) α} {f : α → StateM (List Part) β} {a : α} {b : β}
    {vs ws : List Visited} (hm : Records m a vs) (hf : Records (f a) b ws) :
    Records (m >>= f) b (vs ++ ws) := by
  intro log
  rw [StateT.run_bind, hm log]
  refine (hf _).trans ?_
  rw [Visited.parts_append, List.append_assoc]

theorem map {m : StateM (List Part) α} {a : α} {vs : List Visited} (f : α → β)
    (hm : Records m a vs) :
    Records (m >>= fun x => Pure.pure (f x)) (f a) vs := by
  simpa using hm.bind (f := fun x => Pure.pure (f x)) (pure (f a))

theorem congr {m : StateM (List Part) α} {a : α} {vs ws : List Visited} (hm : Records m a vs)
    (h : Visited.parts vs = Visited.parts ws) : Records m a ws := fun log => by rw [hm log, h]

theorem meetExpr (e : Located Expr) : Records (recorder.meetExpr e) () [.expr e] := fun _ => rfl

theorem meetClause (c : Located Clause) : Records (recorder.meetClause c) () [.clause c] :=
  fun _ => rfl

end Records

end

theorem name_records (n : Located String) : Records (recorder.name n) n [] :=
  (Records.pure n.span).map _

mutual

/-- A rewriting of a node takes down what the traversal meets there, and leaves the node as it
is. -/
theorem node_records : ∀ e : Expr, Records (recorder.node e) e (Preorder.node (fun _ => true) e)
  | .integer _ | .float _ | .char _ | .string _ | .atom _ | .recordIndex _ _ => .pure _
  | .var v => (Records.pure v).map _
  | .tuple es => (exprs_records es).map _
  | .list es tail => (exprs_records es).bind ((optional_records tail).map _)
  | .binary ss => (segments_records ss).map _
  | .map base fs => (optional_records base).bind ((mapFields_records fs).map _)
  | .record base _ fs => (optional_records base).bind ((recordFields_records fs).map _)
  | .recordAccess base _ _ => (expr_records base).map _
  | .matchExpr p v => (expr_records p).bind ((expr_records v).map _)
  | .binaryOp _ a b => (expr_records a).bind ((expr_records b).map _)
  | .unaryOp _ a => (expr_records a).map _
  | .call f args => (expr_records f).bind ((exprs_records args).map _)
  | .remote m f => (expr_records m).bind ((expr_records f).map _)
  | .block es => (exprs_records es).map _
  | .caseExpr e cs => (expr_records e).bind ((clauses_records cs).map _)
  | .ifExpr cs => (clauses_records cs).map _
  | .receiveExpr cs a => (clauses_records cs).bind ((after_records a).map _)
  | .tryExpr es os cs a =>
    ((exprs_records es).bind ((clauses_records os).bind ((clauses_records cs).bind
      ((exprs_records a).map _)))).congr (by simp only [Preorder.node, List.append_assoc])
  | .catchExpr e => (expr_records e).map _
  | .listComp e qs | .binaryComp e qs => (expr_records e).bind ((qualifiers_records qs).map _)
  | .funExpr _ cs => (clauses_records cs).map _
  | .funRef m f a =>
    ((optional_records m).bind ((expr_records f).bind ((expr_records a).map _))).congr
      (by simp only [Preorder.node, List.append_assoc])
  | .macroUse _ none => .pure _
  | .macroUse _ (some args) => (exprs_records args).map _

theorem expr_records : ∀ e : Located Expr,
    Records (recorder.expr e) e (Preorder.expr (fun _ => true) e)
  | ⟨e, s⟩ => (Records.meetExpr ⟨e, s⟩).bind
      ((Records.pure s).bind ((node_records e).map (Located.mk · s)))

theorem exprs_records :
    ∀ es : List (Located Expr), Records (recorder.exprs es) es (Preorder.exprs (fun _ => true) es)
  | [] => .pure _
  | e :: es => (expr_records e).bind ((exprs_records es).map (e :: ·))

theorem optional_records :
    ∀ e : Option (Located Expr), Records (recorder.optional e) e
      (Preorder.optional (fun _ => true) e)
  | none => .pure _
  | some e => (expr_records e).map _

theorem guards_records :
    ∀ gs : List (List (Located Expr)),
    Records (recorder.guards gs) gs (Preorder.guards (fun _ => true) gs)
  | [] => .pure _
  | g :: gs => (exprs_records g).bind ((guards_records gs).map (g :: ·))

theorem clauses_records :
    ∀ cs : List (Located Clause),
    Records (recorder.clauses cs) cs (Preorder.clauses (fun _ => true) cs)
  | [] => .pure _
  | ⟨⟨ps, gs, body⟩, s⟩ :: cs =>
    ((Records.meetClause _).bind ((Records.pure s).bind
      ((exprs_records ps).bind ((guards_records gs).bind
      ((exprs_records body).bind ((clauses_records cs).map _)))))).congr
      (by simp [Preorder.clauses, Preorder.meet])

theorem segments_records :
    ∀ ss : List Segment, Records (recorder.segments ss) ss (Preorder.segments (fun _ => true) ss)
  | [] => .pure _
  | ⟨value, size, types⟩ :: ss =>
    ((expr_records value).bind ((optional_records size).bind ((segments_records ss).map _))).congr
      (by simp only [Preorder.segments, List.append_assoc])

theorem mapFields_records :
    ∀ fs : List MapField, Records (recorder.mapFields fs) fs (Preorder.mapFields (fun _ => true) fs)
  | [] => .pure _
  | ⟨key, op, value⟩ :: fs =>
    ((expr_records key).bind ((expr_records value).bind ((mapFields_records fs).map _))).congr
      (by simp only [Preorder.mapFields, List.append_assoc])

theorem recordFields_records :
    ∀ fs : List RecordField, Records (recorder.recordFields fs) fs
      (Preorder.recordFields (fun _ => true) fs)
  | [] => .pure _
  | ⟨n, value⟩ :: fs =>
    (name_records n).bind ((expr_records value).bind ((recordFields_records fs).map _))

theorem qualifiers_records :
    ∀ qs : List Qualifier, Records (recorder.qualifiers qs) qs
      (Preorder.qualifiers (fun _ => true) qs)
  | [] => .pure _
  | .generator p e :: qs | .binaryGenerator p e :: qs =>
    ((expr_records p).bind ((expr_records e).bind ((qualifiers_records qs).map _))).congr
      (by simp [Preorder.qualifiers, Preorder.meet])
  | .filter e :: qs =>
    ((expr_records e).bind ((qualifiers_records qs).map _)).congr
      (by simp [Preorder.qualifiers, Preorder.meet])

theorem after_records : ∀ a : Option After,
    Records (recorder.after a) a (Preorder.after (fun _ => true) a)
  | none => .pure _
  | some ⟨timeout, body⟩ =>
      (expr_records timeout).bind ((exprs_records body).map (some <| After.mk timeout ·))

end

theorem form_records : ∀ f : Located Form,
    Records (recorder.form f) f (Preorder.form (fun _ => true) f)
  | ⟨.function n arity cs, s⟩ =>
    ((Records.pure s).bind ((name_records n).bind ((clauses_records cs).map _))).congr
      (by simp [Preorder.form, Preorder.meet])
  | ⟨.attribute n (.exprs args), s⟩ =>
    ((Records.pure s).bind ((name_records n).bind
      (((exprs_records args).map AttributeValue.exprs).map _))).congr
      (by simp [Preorder.form, Preorder.meet, Preorder.attributeValue])
  | ⟨.attribute n (.tokens ts), s⟩ =>
    (Records.pure s).bind ((name_records n).bind ((Records.pure (AttributeValue.tokens ts)).map _))

/-! ### The order of the reading traversal -/

/-- What the reading traversal meets of a part: the part itself and all inside it. -/
def Part.visits : Part → List Part
  | .expr e => Visited.parts (Preorder.expr (fun _ => true) e)
  | .clause c => Visited.parts (Preorder.clauses (fun _ => true) [c])

theorem parts_exprs (es : List (Located Expr)) :
    Visited.parts (Preorder.exprs (fun _ => true) es) = (es.map Part.expr).flatMap Part.visits := by
  induction es with
  | nil => rfl
  | cons e es ih => simp [Preorder.exprs, ih, Part.visits]

theorem parts_optional (e : Option (Located Expr)) :
    Visited.parts (Preorder.optional (fun _ => true) e) =
      (e.toList.map Part.expr).flatMap Part.visits := by
  cases e <;> simp [Preorder.optional, Part.visits]

theorem parts_guards (gs : List (List (Located Expr))) :
    Visited.parts (Preorder.guards (fun _ => true) gs) =
      (gs.flatten.map Part.expr).flatMap Part.visits := by
  induction gs with
  | nil => rfl
  | cons g gs ih => simp [Preorder.guards, ih, parts_exprs]

theorem parts_clauses (cs : List (Located Clause)) :
    Visited.parts (Preorder.clauses (fun _ => true) cs) =
      (cs.map Part.clause).flatMap Part.visits := by
  induction cs with
  | nil => rfl
  | cons c cs ih =>
      obtain ⟨⟨ps, gs, body⟩, s⟩ := c
      simp [Preorder.clauses, ih, Part.visits]

theorem parts_segments (ss : List Segment) :
    Visited.parts (Preorder.segments (fun _ => true) ss) =
      ((ss.flatMap fun s => s.value :: s.size.toList).map Part.expr).flatMap Part.visits := by
  induction ss with
  | nil => rfl
  | cons s ss ih =>
      obtain ⟨value, size, types⟩ := s
      simp [Preorder.segments, ih, parts_optional, Part.visits]

theorem parts_mapFields (fs : List MapField) :
    Visited.parts (Preorder.mapFields (fun _ => true) fs) =
      ((fs.flatMap fun f => [f.key, f.value]).map Part.expr).flatMap Part.visits := by
  induction fs with
  | nil => rfl
  | cons f fs ih =>
      obtain ⟨key, op, value⟩ := f
      simp [Preorder.mapFields, ih, Part.visits]

theorem parts_recordFields (fs : List RecordField) :
    Visited.parts (Preorder.recordFields (fun _ => true) fs) =
      ((fs.map RecordField.value).map Part.expr).flatMap Part.visits := by
  induction fs with
  | nil => rfl
  | cons f fs ih =>
      obtain ⟨name, value⟩ := f
      simp [Preorder.recordFields, ih, Part.visits]

theorem parts_qualifiers (qs : List Qualifier) :
    Visited.parts (Preorder.qualifiers (fun _ => true) qs) =
      ((qs.flatMap Qualifier.exprs).map Part.expr).flatMap Part.visits := by
  induction qs with
  | nil => rfl
  | cons q qs ih =>
      cases q <;> simp [Preorder.qualifiers, Preorder.meet, ih, Qualifier.exprs, Part.visits]

theorem parts_after (a : Option After) :
    Visited.parts (Preorder.after (fun _ => true) a) =
      ((a.toList.flatMap fun x => x.timeout :: x.body).map Part.expr).flatMap Part.visits := by
  rcases a with _ | ⟨timeout, body⟩
  · rfl
  · simp [Preorder.after, parts_exprs, Part.visits]

/-- What is met inside a node is what is met in its children, one child after another. -/
theorem parts_node (e : Expr) :
    Visited.parts (Preorder.node (fun _ => true) e) = e.parts.flatMap Part.visits := by
  cases e
  case macroUse name args => cases args <;> simp [Preorder.node, Expr.parts, parts_exprs]
  all_goals simp [Preorder.node, Expr.parts, parts_exprs, parts_optional, parts_clauses,
    parts_segments, parts_mapFields, parts_recordFields, parts_qualifiers, parts_after, Part.visits]

/-- A part is met before everything inside it. -/
theorem visits_eq (p : Part) : p.visits = p :: p.children.flatMap Part.visits := by
  rcases p with ⟨e, s⟩ | ⟨⟨ps, gs, body⟩, s⟩
  · simp [Part.visits, Preorder.expr, Preorder.meet, parts_node, Part.children]
  · simp [Part.visits, Preorder.clauses, Preorder.meet, parts_exprs, parts_guards, Part.children,
      Clause.parts]

/-- Visiting the parts one after another is their preorder. -/
theorem isPreorder_visits (ps : List Part) : Part.IsPreorder ps (ps.flatMap Part.visits) := by
  -- The children of a part are met after it, so that their sequence is shorter.
  induction hlen : (ps.flatMap Part.visits).length using Nat.strongRecOn generalizing ps with
  | ind len ih =>
      subst hlen
      cases ps with
      | nil => exact Part.isPreorder_nil
      | cons p ps =>
          rw [List.flatMap_cons, visits_eq] at ih ⊢
          refine .cons (ih _ ?_ _ rfl) (ih _ ?_ _ rfl)
          all_goals simp only [List.length_cons, List.length_append]
          all_goals omega

theorem parts_form (f : Located Form) :
    Visited.parts (Preorder.form (fun _ => true) f) = f.node.parts.flatMap Part.visits := by
  rcases f with ⟨⟨n, arity, cs⟩ | ⟨n, args | ts⟩, s⟩
  · simp [Preorder.form, Preorder.meet, Form.parts, parts_clauses]
  · simp [Preorder.form, Preorder.meet, Preorder.attributeValue, Form.parts, parts_exprs]
  · rfl

/-- Both traversals meet the same parts of a form or an expression in the same order, and these are
all its parts, each of them once and before those inside it. -/
theorem traversals_meet_all :
    (∀ f : Located Form,
      (recorder.form f).run [] = (f, Visited.parts (Preorder.form (fun _ => true) f)) ∧
        Part.IsPreorder f.node.parts (Visited.parts (Preorder.form (fun _ => true) f))) ∧
    (∀ e : Located Expr,
      (recorder.expr e).run [] = (e, Visited.parts (Preorder.expr (fun _ => true) e)) ∧
        Part.IsPreorder [.expr e] (Visited.parts (Preorder.expr (fun _ => true) e))) := by
  refine ⟨fun f => ⟨form_records f [], ?_⟩, fun e => ⟨expr_records e [], ?_⟩⟩
  · rw [parts_form]
    exact isPreorder_visits f.node.parts
  · simpa [Part.visits] using isPreorder_visits [.expr e]

end ErlangFragment
