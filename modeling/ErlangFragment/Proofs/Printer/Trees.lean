import ErlangFragment.Proofs.Printer.Clauses

/-! The layout of a tree reads as the tree. -/

namespace ErlangFragment

open Grammar Printer Layout

namespace Printer

/-- The shape that the grammar gives to every node, and what holds together in print. -/
def readable : Requirement := ⟨fun e => e.Shaped ∧ HoldsTogether e, Clause.Shaped⟩

variable {b : Bool} {level : Nat}

/-- What stands by itself shows no colon to what is around it. -/
theorem exprExposes_of_bare {e : Located Expr} (h : isBare e.node = true) :
    exprExposes e = false := by
  obtain ⟨e, s⟩ := e
  cases e <;> first | rfl | cases h

theorem baseExposes_eq (e : Located Expr) :
    baseExposes e = (!baseNeedsParens e.node && exprExposes e) := by
  cases e
  rfl

theorem exposesRemote_matchExpr (p v : Located Expr) :
    exposesRemote (.matchExpr p v) = ((!leftNeedsParens matchPower false p.node && exprExposes p) ||
      (!rightNeedsParens matchPower v.node && exprExposes v)) := by
  cases p
  cases v
  rfl

theorem exposesRemote_binaryOp (op : BinaryOp) (l r : Located Expr) :
    exposesRemote (.binaryOp op l r) =
      ((!leftNeedsParens op.power op.isComparison l.node && exprExposes l) ||
        (!rightNeedsParens op.power r.node && exprExposes r)) := by
  cases l
  cases r
  rfl

theorem exposesRemote_unaryOp (op : UnaryOp) (e : Located Expr) :
    exposesRemote (.unaryOp op e) = (!operandNeedsParens e.node && exprExposes e) := by
  cases e
  rfl

theorem exprsExpose_eq_false {es : List (Located Expr)} (h : ∀ e ∈ es, exprExposes e = false) :
    exprsExpose es = false := by
  induction es with
  | nil => rfl
  | cons e es ih =>
      rw [exprsExpose, h e List.mem_cons_self, ih fun e he => h e (List.mem_cons_of_mem _ he)]
      rfl

/-- Neither part exposes a remote call if the whole does not. -/
theorem imp_or_left {x y : Bool} (h : b = true → (x || y) = false) : b = true → x = false :=
  fun hb => (Bool.or_eq_false_iff.mp (h hb)).1

theorem imp_or_right {x y : Bool} (h : b = true → (x || y) = false) : b = true → y = false :=
  fun hb => (Bool.or_eq_false_iff.mp (h hb)).2

theorem imp_and_right {p x : Bool} (h : b = true → (!p && x) = false) (hp : p = false) :
    b = true → x = false := fun hb => by
  simpa [hp] using h hb

theorem imp_base {e : Located Expr} (h : b = true → baseExposes e = false)
    (hbase : baseNeedsParens e.node = false) : b = true → exprExposes e = false := by
  rw [baseExposes_eq] at h
  exact imp_and_right h hbase

/-- The node reads as itself. A remote function does so only with arguments behind it. -/
def ReadsCallee (b : Bool) (level : Nat) : Expr → Prop
  | .remote m f => ReadsExpr false level m ∧ ReadsExpr false level f
  | e => Reads b e (node level e).tokens

theorem ReadsCallee.reads {e : Expr} (h : ReadsCallee b level e) (hremote : e.isRemote = false) :
    Reads b e (node level e).tokens := by
  cases e <;> first | exact h | cases hremote

theorem reads_callOf {f : Located Expr} {args : List (Located Expr)}
    (hends : endsInMacro f.node = false) (hf : ReadsCallee false level f.node)
    (h : baseNeedsParens f.node = false → ReadsCallee b level f.node)
    (hexposed : b = true → baseExposes f = false) (hargs : ReadsEach false level args) :
    Reads b (.call f args) (node level (.call f args)).tokens := by
  obtain ⟨f, s⟩ := f
  by_cases hremote : f.isRemote = false
  · exact reads_call hends (hf.reads hremote) (fun hbase => (h hbase).reads hremote) hargs
  · cases f
    case remote m f =>
      cases b with
      | true => exact nomatch (hexposed rfl : true = false)
      | false => exact reads_remoteCall hf.1 hf.2 hargs
    all_goals exact absurd rfl hremote

-- The induction is on the tree, for both readings of a colon and for every level: in parentheses a
-- part is read with colons even where the node around it is read without.
mutual

/-- The tokens of a node read as the node, with a colon as a separator only if the node shows
none. -/
theorem reads_node : ∀ (e : Expr) (b : Bool) (level : Nat), readable.ofNode e → readable.parts e →
    (b = true → exposesRemote e = false) → ReadsCallee b level e
  | .integer _, _, _, _, _, _ => reads_simple rfl rfl rfl
  | .float _, _, _, _, _, _ => reads_simple rfl rfl rfl
  | .char _, _, _, _, _, _ => reads_simple rfl rfl rfl
  | .string text, _, _, _, _, _ => reads_string text
  | .atom _, _, _, _, _, _ => reads_simple rfl rfl rfl
  | .var _, _, _, _, _, _ => reads_simple rfl rfl rfl
  | .recordIndex name field, _, _, _, _, _ => reads_recordIndex name field
  | .tuple es, b, level, _, h, hx => reads_tuple (reads_exprs es b level h hx)
  | .list es none, b, level, _, h, hx => reads_list (reads_exprs es b level h.1 (imp_or_left hx))
  | .list es (some tail), b, level, hnode, h, hx =>
    reads_listTail (reads_exprs es b level h.1 (imp_or_left hx)) (hnode.1.resolve_right nofun)
      (reads_expr tail b level h.2 (imp_or_right hx))
  | .binary ss, b, level, _, h, _ => reads_binary (reads_segments ss b level h)
  | .map none fs, b, level, _, h, hx => reads_map (reads_mapFields fs b level h.2 (imp_or_right hx))
  | .map (some base) fs, b, level, _, h, hx =>
    reads_mapUpdate (reads_expr base false level h.1 nofun)
      (fun hbase => reads_expr base b level h.1 (imp_base (imp_or_left hx) hbase))
      (reads_mapFields fs b level h.2 (imp_or_right hx))
  | .record none _ fs, b, level, _, h, hx =>
    reads_record (reads_recordFields fs b level h.2 (imp_or_right hx))
  | .record (some base) _ fs, b, level, _, h, hx =>
    reads_recordUpdate (reads_expr base false level h.1 nofun)
      (fun hbase => reads_expr base b level h.1 (imp_base (imp_or_left hx) hbase))
      (reads_recordFields fs b level h.2 (imp_or_right hx))
  | .recordAccess base _ _, b, level, _, h, hx =>
    reads_recordAccess (reads_expr base false level h nofun)
      fun hbase => reads_expr base b level h (imp_base hx hbase)
  | .matchExpr p v, b, level, _, h, hx => by
    rw [exposesRemote_matchExpr] at hx
    exact reads_matchExpr (reads_expr p false level h.1 nofun)
      (fun hp => reads_expr p b level h.1 (imp_and_right (imp_or_left hx) hp))
      (reads_expr v false level h.2 nofun)
      fun hp => reads_expr v b level h.2 (imp_and_right (imp_or_right hx) hp)
  | .binaryOp op l r, b, level, _, h, hx => by
    rw [exposesRemote_binaryOp] at hx
    exact reads_binaryOp op (reads_expr l false level h.1 nofun)
      (fun hp => reads_expr l b level h.1 (imp_and_right (imp_or_left hx) hp))
      (reads_expr r false level h.2 nofun)
      fun hp => reads_expr r b level h.2 (imp_and_right (imp_or_right hx) hp)
  | .unaryOp op e, b, level, _, h, hx => by
    rw [exposesRemote_unaryOp] at hx
    exact reads_unaryOp op (reads_expr e false level h nofun)
      fun hp => reads_expr e b level h (imp_and_right hx hp)
  | .call f args, b, level, hnode, h, hx =>
    reads_callOf hnode.2 (reads_callee f false level h.1 nofun)
      (fun hbase => reads_callee f b level h.1 (imp_base hx hbase)) hx
      (reads_exprs args false level h.2 nofun)
  | .remote m f, _, level, _, h, _ =>
    ⟨reads_expr m false level h.1 nofun, reads_expr f false level h.2 nofun⟩
  | .catchExpr e, b, level, _, h, hx => reads_catchExpr (reads_expr e b level h hx)
  | .block es, b, level, hnode, h, hx => reads_block (reads_exprs es b (level + 1) h hx) hnode.1
  | .caseExpr e cs, b, level, hnode, h, hx =>
    reads_caseExpr (reads_expr e b level h.1 (imp_or_left hx))
      (reads_clauses cs b (level + 1) h.2 (imp_or_right hx)) hnode.1.1 hnode.1.2
  | .ifExpr cs, b, level, hnode, h, hx =>
    reads_ifExpr (reads_clauses cs b (level + 1) h hx) hnode.1.1 hnode.1.2
  | .receiveExpr cs none, b, level, hnode, h, hx =>
    reads_receiveExpr (reads_clauses cs b (level + 1) h.1 (imp_or_left hx))
      (hnode.1.1.resolve_right nofun) hnode.1.2.1
  | .receiveExpr cs (some a), b, level, hnode, h, hx =>
    reads_receiveAfter (reads_clauses cs b (level + 1) h.1 (imp_or_left hx)) hnode.1.2.1
      (reads_after (some a) b level h.2 (imp_or_right hx) a rfl) (hnode.1.2.2 a rfl)
  | .tryExpr es os cs as, b, level, hnode, h, hx =>
    reads_tryExpr (reads_exprs es b (level + 1) h.1 (imp_or_left (imp_or_left (imp_or_left hx))))
      hnode.1.1
      (reads_clauses os b (level + 1) h.2.1 (imp_or_right (imp_or_left (imp_or_left hx))))
      hnode.1.2.1 (reads_clauses cs b (level + 1) h.2.2.1 (imp_or_right (imp_or_left hx)))
      hnode.1.2.2.1 (fun c hc => exprsExpose_eq_false (hnode.2 c hc))
      (reads_exprs as b (level + 1) h.2.2.2 (imp_or_right hx)) hnode.1.2.2.2
  | .listComp e qs, b, level, hnode, h, hx =>
    reads_listComp (reads_expr e b level h.1 (imp_or_left hx))
      (reads_qualifiers qs b level h.2 (imp_or_right hx)) hnode.1
  | .binaryComp e qs, b, level, hnode, h, hx =>
    reads_binaryComp (reads_expr e false level h.1 nofun)
      (fun hbare => reads_expr e b level h.1 fun _ => exprExposes_of_bare hbare)
      (reads_qualifiers qs b level h.2 hx) hnode.1
  | .funExpr none cs, b, level, hnode, h, hx =>
    reads_funExpr (reads_clauses cs b (level + 1) h hx) hnode.1
  | .funExpr (some name) cs, b, level, hnode, h, hx =>
    reads_namedFun name (reads_clauses cs b (level + 1) h hx) hnode.1
  | .funRef m f a, b, level, hnode, h, hx =>
    reads_funRef hnode.1 (reads_expr f b level h.2.1 (imp_or_left hx)) hnode.2.1
      (reads_expr a b level h.2.2 (imp_or_right hx)) hnode.2.2
  | .macroUse name none, _, _, _, _, _ => reads_macroName name
  | .macroUse name (some args), _, level, _, h, _ =>
    reads_macroCall name (reads_exprs args false level h nofun)

theorem reads_expr : ∀ (e : Located Expr) (b : Bool) (level : Nat), readable.expr e →
    (b = true → exprExposes e = false) → ReadsExpr b level e
  | ⟨e, _⟩, b, level, ⟨hremote, hnode, hparts⟩, hx =>
    (reads_node e b level hnode hparts hx).reads hremote

theorem reads_callee : ∀ (e : Located Expr) (b : Bool) (level : Nat), readable.callee e →
    (b = true → exprExposes e = false) → ReadsCallee b level e.node
  | ⟨e, _⟩, b, level, ⟨hnode, hparts⟩, hx => reads_node e b level hnode hparts hx

theorem reads_exprs : ∀ (es : List (Located Expr)) (b : Bool) (level : Nat), readable.exprs es →
    (b = true → exprsExpose es = false) → ReadsEach b level es
  | [], _, _, _, _ => .nil
  | e :: es, b, level, h, hx =>
    .cons (fun _ hnext => (reads_expr e b level h.1 (imp_or_left hx)).closed hnext)
      (reads_exprs es b level h.2 (imp_or_right hx))

theorem reads_guards : ∀ (gs : List (List (Located Expr))) (b : Bool) (level : Nat),
    readable.guards gs → (∀ g ∈ gs, g ≠ []) → (b = true → guardsExpose gs = false) →
    Elements .exprs b (ClosesList b) (erase gs) ((guards level gs).map tokens)
  | [], _, _, _, _, _ => .nil
  | g :: gs, b, level, h, hne, hx =>
    .cons (fun _ hnext => by
        rw [tokens_commas]
        exact (reads_exprs g b level h.1 (imp_or_left hx)).exprs (hne g List.mem_cons_self) hnext)
      (reads_guards gs b level h.2 (fun g hg => hne g (List.mem_cons_of_mem _ hg))
        (imp_or_right hx))

theorem reads_clauses : ∀ (cs : List (Located Clause)) (b : Bool) (level : Nat),
    readable.clauses cs → (b = true → clausesExpose cs = false) → ClausesRead b level cs
  | [], _, _, _, _ => nofun
  | ⟨⟨ps, gs, body⟩, _⟩ :: cs, b, level, ⟨⟨hclause, hps, hgs, hbody⟩, hcs⟩, hx => by
    have hhead := imp_or_left hx
    have hread : ClauseReads b level ⟨ps, gs, body⟩ := {
      patterns := reads_exprs ps b level hps (imp_or_left (imp_or_left hhead))
      separated := fun hx => reads_exprs ps true level hps fun _ => hx
      guards := reads_guards gs b level hgs hclause.1 (imp_or_right (imp_or_left hhead))
      body := reads_exprs body b (level + 1) hbody (imp_or_right hhead)
      nonempty := hclause.2 }
    have hrest := reads_clauses cs b level hcs (imp_or_right hx)
    rintro c hc
    rcases List.mem_cons.mp hc with rfl | hc
    · exact hread
    · exact hrest c hc

theorem reads_segments : ∀ (ss : List Segment) (b : Bool) (level : Nat), readable.segments ss →
    Elements .segment b ClosesSegment (erase ss) ((segments level ss).map tokens)
  | [], _, _, _ => .nil
  | ⟨value, size, types⟩ :: ss, b, level, h => by
    have hvalue : ∀ b', (b' = true → exprExposes value = false) → ReadsExpr b' level value :=
      fun b' => reads_expr value b' level h.1.1
    have hsize : ∀ l ∈ size, ∀ b', (b' = true → exprExposes l = false) → ReadsExpr b' level l :=
      reads_optional size level h.1.2
    refine .cons (fun _ hnext => ?_) (reads_segments ss b level h.2)
    exact segment_closed types (hvalue false nofun)
      (fun hbare => hvalue b fun _ => exprExposes_of_bare hbare)
      (fun l hl => hsize l hl false nofun)
        (fun l hl hbare => hsize l hl b fun _ => exprExposes_of_bare hbare)
      hnext

theorem reads_optional : ∀ (e : Option (Located Expr)) (level : Nat), readable.optional e →
    ∀ l ∈ e, ∀ b, (b = true → exprExposes l = false) → ReadsExpr b level l
  | none, _, _ => nofun
  | some e, level, h => fun
    | _, rfl, b => reads_expr e b level h

theorem reads_mapFields : ∀ (fs : List MapField) (b : Bool) (level : Nat), readable.mapFields fs →
    (b = true → mapFieldsExpose fs = false) →
    Elements .mapField b (Closes b) (erase fs) ((mapFields level fs).map tokens)
  | [], _, _, _, _ => .nil
  | ⟨key, op, value⟩ :: fs, b, level, h, hx =>
    .cons (fun _ hnext =>
        mapField_closed op (reads_expr key b level h.1.1 (imp_or_left (imp_or_left hx)))
          (reads_expr value b level h.1.2 (imp_or_right (imp_or_left hx))) hnext)
      (reads_mapFields fs b level h.2 (imp_or_right hx))

theorem reads_recordFields : ∀ (fs : List RecordField) (b : Bool) (level : Nat),
    readable.recordFields fs → (b = true → recordFieldsExpose fs = false) →
    Elements .recordField b (Closes b) (erase fs) ((recordFields level fs).map tokens)
  | [], _, _, _, _ => .nil
  | ⟨n, value⟩ :: fs, b, level, h, hx =>
    .cons (fun _ hnext => recordField_closed n
      (reads_expr value b level h.1 (imp_or_left hx)) hnext)
      (reads_recordFields fs b level h.2 (imp_or_right hx))

theorem reads_qualifiers : ∀ (qs : List Qualifier) (b : Bool) (level : Nat),
    readable.qualifiers qs →
    (b = true → qualifiersExpose qs = false) → QualifiersRead b level qs
  | [], _, _, _, _ => .nil
  | .generator p e :: qs, b, level, h, hx =>
    .cons (fun _ hnext =>
        generator_closed (reads_expr p b level h.1.1 (imp_or_left (imp_or_left hx)))
          (reads_expr e b level h.1.2 (imp_or_right (imp_or_left hx))) hnext.toCloses)
      (reads_qualifiers qs b level h.2 (imp_or_right hx))
  | .binaryGenerator p e :: qs, b, level, h, hx =>
    .cons (fun _ hnext =>
        binaryGenerator_closed (reads_expr p b level h.1.1 (imp_or_left (imp_or_left hx)))
          (reads_expr e b level h.1.2 (imp_or_right (imp_or_left hx))) hnext.toCloses)
      (reads_qualifiers qs b level h.2 (imp_or_right hx))
  | .filter e :: qs, b, level, h, hx =>
    .cons (fun _ hnext => filter_closed (reads_expr e b level h.1 (imp_or_left hx)) hnext)
      (reads_qualifiers qs b level h.2 (imp_or_right hx))

theorem reads_after : ∀ (a : Option After) (b : Bool) (level : Nat), readable.after a →
    (b = true → afterExposes a = false) → ∀ x ∈ a, AfterReads b level x
  | none, _, _, _, _ => nofun
  | some ⟨timeout, body⟩, b, level, h, hx => fun
    | _, rfl => ⟨reads_expr timeout b (level + 1) h.1 (imp_or_left hx),
        reads_exprs body b (level + 2) h.2 (imp_or_right hx)⟩

end

end Printer

end ErlangFragment
