import Mathlib.Data.List.Forall2
import ErlangFragment.Proofs.Tree.Erasure
import ErlangFragment.Proofs.Tree.Spans

/-! What erasure of spans does to a tree. No span is left, nothing else is gone, and trees become
equal exactly if they differ at most in their spans. -/

namespace ErlangFragment

/-! ### Trees that differ at most in their spans -/

namespace Alike

mutual

/-- The nodes are the same but for spans below them. -/
inductive Node : Expr → Expr → Prop
  | integer (n : IntegerLiteral) : Node (.integer n) (.integer n)
  | float (x : Binary64) : Node (.float x) (.float x)
  | char (c : Char) : Node (.char c) (.char c)
  | string (s : String) : Node (.string s) (.string s)
  | atom (a : String) : Node (.atom a) (.atom a)
  | var (v : String) : Node (.var v) (.var v)
  | tuple {es fs} : Exprs es fs → Node (.tuple es) (.tuple fs)
  | list {es fs s t} : Exprs es fs → Optional s t → Node (.list es s) (.list fs t)
  | binary {ss ts} : Segments ss ts → Node (.binary ss) (.binary ts)
  | map {a b fs gs} : Optional a b → MapFields fs gs → Node (.map a fs) (.map b gs)
  | record {a b fs gs} (n : String) : Optional a b → RecordFields fs gs →
      Node (.record a n fs) (.record b n gs)
  | recordIndex (n f : String) : Node (.recordIndex n f) (.recordIndex n f)
  | recordAccess {a b} (n f : String) : Tree a b → Node (.recordAccess a n f) (.recordAccess b n f)
  | matchExpr {p q v w} : Tree p q → Tree v w → Node (.matchExpr p v) (.matchExpr q w)
  | binaryOp {a b c d} (op : BinaryOp) : Tree a c → Tree b d →
      Node (.binaryOp op a b) (.binaryOp op c d)
  | unaryOp {a b} (op : UnaryOp) : Tree a b → Node (.unaryOp op a) (.unaryOp op b)
  | call {f g es fs} : Tree f g → Exprs es fs → Node (.call f es) (.call g fs)
  | remote {m n f g} : Tree m n → Tree f g → Node (.remote m f) (.remote n g)
  | block {es fs} : Exprs es fs → Node (.block es) (.block fs)
  | caseExpr {e f cs ds} : Tree e f → Clauses cs ds → Node (.caseExpr e cs) (.caseExpr f ds)
  | ifExpr {cs ds} : Clauses cs ds → Node (.ifExpr cs) (.ifExpr ds)
  | receiveExpr {cs ds a b} : Clauses cs ds → Afters a b →
      Node (.receiveExpr cs a) (.receiveExpr ds b)
  | tryExpr {es fs os ps cs ds as bs} : Exprs es fs → Clauses os ps → Clauses cs ds → Exprs as bs →
      Node (.tryExpr es os cs as) (.tryExpr fs ps ds bs)
  | catchExpr {e f} : Tree e f → Node (.catchExpr e) (.catchExpr f)
  | listComp {e f qs rs} : Tree e f → Qualifiers qs rs → Node (.listComp e qs) (.listComp f rs)
  | binaryComp {e f qs rs} : Tree e f → Qualifiers qs rs →
      Node (.binaryComp e qs) (.binaryComp f rs)
  | funExpr {cs ds} (name : Option String) : Clauses cs ds →
      Node (.funExpr name cs) (.funExpr name ds)
  | funRef {m n f g a b} : Optional m n → Tree f g → Tree a b → Node (.funRef m f a) (.funRef n g b)
  | macroName (name : String) : Node (.macroUse name none) (.macroUse name none)
  | macroCall {es fs} (name : String) : Exprs es fs →
      Node (.macroUse name (some es)) (.macroUse name (some fs))

/-- The spans of the two trees themselves are not compared either. -/
inductive Tree : Located Expr → Located Expr → Prop
  | node {e f} (s t : Span) : Node e f → Tree ⟨e, s⟩ ⟨f, t⟩

/-- Lists whose members are alike. -/
inductive Exprs : List (Located Expr) → List (Located Expr) → Prop
  | nil : Exprs [] []
  | cons {e f es fs} : Tree e f → Exprs es fs → Exprs (e :: es) (f :: fs)

/-- Both are there and alike, or neither is. -/
inductive Optional : Option (Located Expr) → Option (Located Expr) → Prop
  | none : Optional none none
  | some {e f} : Tree e f → Optional (some e) (some f)

/-- Guards with tests that are alike. -/
inductive Guards : List (List (Located Expr)) → List (List (Located Expr)) → Prop
  | nil : Guards [] []
  | cons {g h gs hs} : Exprs g h → Guards gs hs → Guards (g :: gs) (h :: hs)

/-- Clauses with patterns, guards and bodies that are alike. -/
inductive Clauses : List (Located Clause) → List (Located Clause) → Prop
  | nil : Clauses [] []
  | cons {ps qs gs hs as bs cs ds} (s t : Span) : Exprs ps qs → Guards gs hs → Exprs as bs →
      Clauses cs ds →
      Clauses (⟨⟨ps, gs, as⟩, s⟩ :: cs) (⟨⟨qs, hs, bs⟩, t⟩ :: ds)

/-- Segments with values and sizes that are alike, and the same types. -/
inductive Segments : List Segment → List Segment → Prop
  | nil : Segments [] []
  | cons {v w m n ss ts} (types : List SegmentType) : Tree v w → Optional m n → Segments ss ts →
      Segments (⟨v, m, types⟩ :: ss) (⟨w, n, types⟩ :: ts)

/-- Fields with keys and values that are alike, and the same operator. -/
inductive MapFields : List MapField → List MapField → Prop
  | nil : MapFields [] []
  | cons {k l v w fs gs} (op : MapOp) : Tree k l → Tree v w → MapFields fs gs →
      MapFields (⟨k, op, v⟩ :: fs) (⟨l, op, w⟩ :: gs)

/-- Fields with the same name and values that are alike. -/
inductive RecordFields : List RecordField → List RecordField → Prop
  | nil : RecordFields [] []
  | cons {v w fs gs} (name : String) (s t : Span) : Tree v w → RecordFields fs gs →
      RecordFields (⟨⟨name, s⟩, v⟩ :: fs) (⟨⟨name, t⟩, w⟩ :: gs)

/-- Qualifiers of the same kind. -/
inductive Qualifiers : List Qualifier → List Qualifier → Prop
  | nil : Qualifiers [] []
  | generator {p q e f qs rs} : Tree p q → Tree e f → Qualifiers qs rs →
      Qualifiers (.generator p e :: qs) (.generator q f :: rs)
  | binaryGenerator {p q e f qs rs} : Tree p q → Tree e f → Qualifiers qs rs →
      Qualifiers (.binaryGenerator p e :: qs) (.binaryGenerator q f :: rs)
  | filter {e f qs rs} : Tree e f → Qualifiers qs rs →
      Qualifiers (.filter e :: qs) (.filter f :: rs)

/-- Both are there, with timeouts and bodies that are alike, or neither is. -/
inductive Afters : Option After → Option After → Prop
  | none : Afters none none
  | some {e f es fs} : Tree e f → Exprs es fs → Afters (some ⟨e, es⟩) (some ⟨f, fs⟩)

end

/-- The forms are the same but for spans in them. -/
inductive OfForm : Located Form → Located Form → Prop
  | function {cs ds} (name : String) (arity : Nat) (s t u v : Span) : Clauses cs ds →
      OfForm ⟨.function ⟨name, u⟩ arity cs, s⟩ ⟨.function ⟨name, v⟩ arity ds, t⟩
  | exprs {es fs} (name : String) (s t u v : Span) : Exprs es fs →
      OfForm ⟨.attribute ⟨name, u⟩ (.exprs es), s⟩ ⟨.attribute ⟨name, v⟩ (.exprs fs), t⟩
  | tokens (name : String) (ts : List Token) (s t u v : Span) :
      OfForm ⟨.attribute ⟨name, u⟩ (.tokens ts), s⟩ ⟨.attribute ⟨name, v⟩ (.tokens ts), t⟩

/-! ### Nothing else is gone -/

mutual

/-- Erasing the spans leaves a node that is alike. -/
theorem node_erase : ∀ e : Expr, Node e e.eraseParts
  | .integer n => .integer n
  | .float x => .float x
  | .char c => .char c
  | .string s => .string s
  | .atom a => .atom a
  | .var v => .var v
  | .tuple es => .tuple (exprs_erase es)
  | .list es tail => .list (exprs_erase es) (optional_erase tail)
  | .binary ss => .binary (segments_erase ss)
  | .map base fs => .map (optional_erase base) (mapFields_erase fs)
  | .record base n fs => .record n (optional_erase base) (recordFields_erase fs)
  | .recordIndex n f => .recordIndex n f
  | .recordAccess base n f => .recordAccess n f (tree_erase base)
  | .matchExpr p v => .matchExpr (tree_erase p) (tree_erase v)
  | .binaryOp op a b => .binaryOp op (tree_erase a) (tree_erase b)
  | .unaryOp op a => .unaryOp op (tree_erase a)
  | .call f args => .call (tree_erase f) (exprs_erase args)
  | .remote m f => .remote (tree_erase m) (tree_erase f)
  | .block es => .block (exprs_erase es)
  | .caseExpr e cs => .caseExpr (tree_erase e) (clauses_erase cs)
  | .ifExpr cs => .ifExpr (clauses_erase cs)
  | .receiveExpr cs a => .receiveExpr (clauses_erase cs) (after_erase a)
  | .tryExpr es os cs as =>
    .tryExpr (exprs_erase es) (clauses_erase os) (clauses_erase cs) (exprs_erase as)
  | .catchExpr e => .catchExpr (tree_erase e)
  | .listComp e qs => .listComp (tree_erase e) (qualifiers_erase qs)
  | .binaryComp e qs => .binaryComp (tree_erase e) (qualifiers_erase qs)
  | .funExpr name cs => .funExpr name (clauses_erase cs)
  | .funRef m f a => .funRef (optional_erase m) (tree_erase f) (tree_erase a)
  | .macroUse name none => .macroName name
  | .macroUse name (some args) => .macroCall name (exprs_erase args)

theorem tree_erase : ∀ e : Located Expr, Tree e (erase e)
  | ⟨e, s⟩ => by
    rw [erase_expr]
    exact .node s .nowhere (node_erase e)

theorem exprs_erase : ∀ es : List (Located Expr), Exprs es (erase es)
  | [] => .nil
  | e :: es => .cons (tree_erase e) (exprs_erase es)

theorem optional_erase : ∀ e : Option (Located Expr), Optional e (erase e)
  | none => .none
  | some e => .some (tree_erase e)

theorem guards_erase : ∀ gs : List (List (Located Expr)), Guards gs (erase gs)
  | [] => .nil
  | g :: gs => .cons (exprs_erase g) (guards_erase gs)

theorem clauses_erase : ∀ cs : List (Located Clause), Clauses cs (erase cs)
  | [] => .nil
  | ⟨⟨ps, gs, body⟩, s⟩ :: cs =>
    .cons s .nowhere (exprs_erase ps) (guards_erase gs) (exprs_erase body) (clauses_erase cs)

theorem segments_erase : ∀ ss : List Segment, Segments ss (erase ss)
  | [] => .nil
  | ⟨value, size, types⟩ :: ss =>
    .cons types (tree_erase value) (optional_erase size) (segments_erase ss)

theorem mapFields_erase : ∀ fs : List MapField, MapFields fs (erase fs)
  | [] => .nil
  | ⟨key, op, value⟩ :: fs => .cons op (tree_erase key) (tree_erase value) (mapFields_erase fs)

theorem recordFields_erase : ∀ fs : List RecordField, RecordFields fs (erase fs)
  | [] => .nil
  | ⟨⟨name, s⟩, value⟩ :: fs => .cons name s .nowhere (tree_erase value) (recordFields_erase fs)

theorem qualifiers_erase : ∀ qs : List Qualifier, Qualifiers qs (erase qs)
  | [] => .nil
  | .generator p e :: qs => .generator (tree_erase p) (tree_erase e) (qualifiers_erase qs)
  | .binaryGenerator p e :: qs =>
      .binaryGenerator (tree_erase p) (tree_erase e) (qualifiers_erase qs)
  | .filter e :: qs => .filter (tree_erase e) (qualifiers_erase qs)

theorem after_erase : ∀ a : Option After, Afters a (erase a)
  | none => .none
  | some ⟨timeout, body⟩ => .some (tree_erase timeout) (exprs_erase body)

end

/-! ### Erasing makes trees equal that are alike -/

mutual

/-- Nodes that are alike differ in spans only, so erasing makes them the same. -/
theorem Node.erase_eq : ∀ {e f : Expr}, Node e f → e.eraseParts = f.eraseParts
  | _, _, .integer _ | _, _, .float _ | _, _, .char _ | _, _, .string _ | _, _, .atom _
  | _, _, .var _
  | _, _, .recordIndex _ _ | _, _, .macroName _ => rfl
  | _, _, .tuple hes => by simp only [Expr.eraseParts, hes.erase_eq]
  | _, _, .list hes htail => by simp only [Expr.eraseParts, hes.erase_eq, htail.erase_eq]
  | _, _, .binary hss => by simp only [Expr.eraseParts, hss.erase_eq]
  | _, _, .map hbase hfs | _, _, .record _ hbase hfs => by
    simp only [Expr.eraseParts, hbase.erase_eq, hfs.erase_eq]
  | _, _, .recordAccess _ _ hbase => by simp only [Expr.eraseParts, hbase.erase_eq]
  | _, _, .matchExpr hp hv => by simp only [Expr.eraseParts, hp.erase_eq, hv.erase_eq]
  | _, _, .binaryOp _ ha hb => by simp only [Expr.eraseParts, ha.erase_eq, hb.erase_eq]
  | _, _, .unaryOp _ ha => by simp only [Expr.eraseParts, ha.erase_eq]
  | _, _, .call hf hargs => by simp only [Expr.eraseParts, hf.erase_eq, hargs.erase_eq]
  | _, _, .remote hm hf => by simp only [Expr.eraseParts, hm.erase_eq, hf.erase_eq]
  | _, _, .block hes => by simp only [Expr.eraseParts, hes.erase_eq]
  | _, _, .caseExpr he hcs => by simp only [Expr.eraseParts, he.erase_eq, hcs.erase_eq]
  | _, _, .ifExpr hcs => by simp only [Expr.eraseParts, hcs.erase_eq]
  | _, _, .receiveExpr hcs ha => by simp only [Expr.eraseParts, hcs.erase_eq, ha.erase_eq]
  | _, _, .tryExpr hes hos hcs has => by
    simp only [Expr.eraseParts, hes.erase_eq, hos.erase_eq, hcs.erase_eq, has.erase_eq]
  | _, _, .catchExpr he => by simp only [Expr.eraseParts, he.erase_eq]
  | _, _, .listComp he hqs | _, _, .binaryComp he hqs => by
    simp only [Expr.eraseParts, he.erase_eq, hqs.erase_eq]
  | _, _, .funExpr _ hcs => by simp only [Expr.eraseParts, hcs.erase_eq]
  | _, _, .funRef hm hf ha => by simp only [Expr.eraseParts, hm.erase_eq, hf.erase_eq, ha.erase_eq]
  | _, _, .macroCall _ hargs => by simp only [Expr.eraseParts, erase_some, hargs.erase_eq]

theorem Tree.erase_eq : ∀ {e f : Located Expr}, Tree e f → erase e = erase f
  | _, _, .node s t h => erase_congr h.erase_eq s t

theorem Exprs.erase_eq : ∀ {es fs : List (Located Expr)}, Exprs es fs → erase es = erase fs
  | _, _, .nil => rfl
  | _, _, .cons he hes => by simp only [erase_cons, he.erase_eq, hes.erase_eq]

theorem Optional.erase_eq : ∀ {e f : Option (Located Expr)}, Optional e f → erase e = erase f
  | _, _, .none => rfl
  | _, _, .some he => by simp only [erase_some, he.erase_eq]

theorem Guards.erase_eq : ∀ {gs hs : List (List (Located Expr))}, Guards gs hs → erase gs = erase hs
  | _, _, .nil => rfl
  | _, _, .cons hg hgs => by simp only [erase_cons, hg.erase_eq, hgs.erase_eq]

theorem Clauses.erase_eq : ∀ {cs ds : List (Located Clause)}, Clauses cs ds → erase cs = erase ds
  | _, _, .nil => rfl
  | _, _, .cons _ _ hps hgs hbody hcs => by
    have hclause (ps gs body : _) (s : Span) :
        erase (⟨⟨ps, gs, body⟩, s⟩ : Located Clause) =
          ⟨⟨erase ps, erase gs, erase body⟩, .nowhere⟩ := rfl
    simp only [erase_cons, hclause, hps.erase_eq, hgs.erase_eq, hbody.erase_eq, hcs.erase_eq]

theorem Segments.erase_eq : ∀ {ss ts : List Segment}, Segments ss ts → erase ss = erase ts
  | _, _, .nil => rfl
  | _, _, .cons types hv hsize hss => by
    have hsegment (v : Located Expr) (l : Option (Located Expr)) :
        erase (⟨v, l, types⟩ : Segment) = ⟨erase v, erase l, types⟩ := rfl
    simp only [erase_cons, hsegment, hv.erase_eq, hsize.erase_eq, hss.erase_eq]

theorem MapFields.erase_eq : ∀ {fs gs : List MapField}, MapFields fs gs → erase fs = erase gs
  | _, _, .nil => rfl
  | _, _, .cons op hk hv hfs => by
    have hfield (k v : Located Expr) : erase (⟨k, op, v⟩ : MapField) = ⟨erase k, op, erase v⟩ := rfl
    simp only [erase_cons, hfield, hk.erase_eq, hv.erase_eq, hfs.erase_eq]

theorem RecordFields.erase_eq :
    ∀ {fs gs : List RecordField}, RecordFields fs gs → erase fs = erase gs
  | _, _, .nil => rfl
  | _, _, .cons name _ _ hv hfs => by
    have hfield (s : Span) (v : Located Expr) :
        erase (⟨⟨name, s⟩, v⟩ : RecordField) = ⟨⟨name, .nowhere⟩, erase v⟩ := rfl
    simp only [erase_cons, hfield, hv.erase_eq, hfs.erase_eq]

theorem Qualifiers.erase_eq : ∀ {qs rs : List Qualifier}, Qualifiers qs rs → erase qs = erase rs
  | _, _, .nil => rfl
  | _, _, .generator hp he hqs => by
    have hqualifier (p e : Located Expr) :
        erase (Qualifier.generator p e) = .generator (erase p) (erase e) := rfl
    simp only [erase_cons, hqualifier, hp.erase_eq, he.erase_eq, hqs.erase_eq]
  | _, _, .binaryGenerator hp he hqs => by
    have hqualifier (p e : Located Expr) :
        erase (Qualifier.binaryGenerator p e) = .binaryGenerator (erase p) (erase e) := rfl
    simp only [erase_cons, hqualifier, hp.erase_eq, he.erase_eq, hqs.erase_eq]
  | _, _, .filter he hqs => by
    have hqualifier (e : Located Expr) : erase (Qualifier.filter e) = .filter (erase e) := rfl
    simp only [erase_cons, hqualifier, he.erase_eq, hqs.erase_eq]

theorem Afters.erase_eq : ∀ {a b : Option After}, Afters a b → erase a = erase b
  | _, _, .none => rfl
  | _, _, .some htimeout hbody => by
    have hafter (t : Located Expr) (b : List (Located Expr)) :
        erase (⟨t, b⟩ : After) = ⟨erase t, erase b⟩ := rfl
    simp only [erase_some, hafter, htimeout.erase_eq, hbody.erase_eq]

end

/-! ### Trees are alike if erasing makes them equal -/

mutual

/-- What is alike to a node without its spans is alike to the node. -/
theorem Node.of_erase : ∀ {f e : Expr}, Node e f.eraseParts → Node e f
  | .integer _, _, .integer n => .integer n
  | .float _, _, .float x => .float x
  | .char _, _, .char c => .char c
  | .string _, _, .string s => .string s
  | .atom _, _, .atom a => .atom a
  | .var _, _, .var v => .var v
  | .tuple _, _, .tuple hes => .tuple hes.of_erase
  | .list _ _, _, .list hes htail => .list hes.of_erase htail.of_erase
  | .binary _, _, .binary hss => .binary hss.of_erase
  | .map _ _, _, .map hbase hfs => .map hbase.of_erase hfs.of_erase
  | .record _ _ _, _, .record n hbase hfs => .record n hbase.of_erase hfs.of_erase
  | .recordIndex _ _, _, .recordIndex n f => .recordIndex n f
  | .recordAccess _ _ _, _, .recordAccess n f hbase => .recordAccess n f hbase.of_erase
  | .matchExpr _ _, _, .matchExpr hp hv => .matchExpr hp.of_erase hv.of_erase
  | .binaryOp _ _ _, _, .binaryOp op ha hb => .binaryOp op ha.of_erase hb.of_erase
  | .unaryOp _ _, _, .unaryOp op ha => .unaryOp op ha.of_erase
  | .call _ _, _, .call hf hargs => .call hf.of_erase hargs.of_erase
  | .remote _ _, _, .remote hm hf => .remote hm.of_erase hf.of_erase
  | .block _, _, .block hes => .block hes.of_erase
  | .caseExpr _ _, _, .caseExpr he hcs => .caseExpr he.of_erase hcs.of_erase
  | .ifExpr _, _, .ifExpr hcs => .ifExpr hcs.of_erase
  | .receiveExpr _ _, _, .receiveExpr hcs ha => .receiveExpr hcs.of_erase ha.of_erase
  | .tryExpr _ _ _ _, _, .tryExpr hes hos hcs has =>
    .tryExpr hes.of_erase hos.of_erase hcs.of_erase has.of_erase
  | .catchExpr _, _, .catchExpr he => .catchExpr he.of_erase
  | .listComp _ _, _, .listComp he hqs => .listComp he.of_erase hqs.of_erase
  | .binaryComp _ _, _, .binaryComp he hqs => .binaryComp he.of_erase hqs.of_erase
  | .funExpr _ _, _, .funExpr name hcs => .funExpr name hcs.of_erase
  | .funRef _ _ _, _, .funRef hm hf ha => .funRef hm.of_erase hf.of_erase ha.of_erase
  | .macroUse _ none, _, .macroName name => .macroName name
  | .macroUse _ (some _), _, .macroCall name hargs => .macroCall name hargs.of_erase

theorem Tree.of_erase : ∀ {f e : Located Expr}, Tree e (erase f) → Tree e f
  | ⟨f, t⟩, ⟨e, s⟩, h => by
    rw [erase_expr] at h
    cases h with
    | node _ _ h => exact .node s t h.of_erase

theorem Exprs.of_erase : ∀ {fs es : List (Located Expr)}, Exprs es (erase fs) → Exprs es fs
  | [], _, .nil => .nil
  | _ :: _, _, .cons he hes => .cons he.of_erase hes.of_erase

theorem Optional.of_erase : ∀ {f e : Option (Located Expr)}, Optional e (erase f) → Optional e f
  | none, _, .none => .none
  | some _, _, .some he => .some he.of_erase

theorem Guards.of_erase : ∀ {hs gs : List (List (Located Expr))}, Guards gs (erase hs) →
    Guards gs hs
  | [], _, .nil => .nil
  | _ :: _, _, .cons hg hgs => .cons hg.of_erase hgs.of_erase

theorem Clauses.of_erase : ∀ {ds cs : List (Located Clause)}, Clauses cs (erase ds) → Clauses cs ds
  | [], _, .nil => .nil
  | ⟨⟨_, _, _⟩, t⟩ :: _, _, .cons s _ hps hgs hbody hcs =>
    .cons s t hps.of_erase hgs.of_erase hbody.of_erase hcs.of_erase

theorem Segments.of_erase : ∀ {ts ss : List Segment}, Segments ss (erase ts) → Segments ss ts
  | [], _, .nil => .nil
  | ⟨_, _, _⟩ :: _, _, .cons types hv hsize hss =>
      .cons types hv.of_erase hsize.of_erase hss.of_erase

theorem MapFields.of_erase : ∀ {gs fs : List MapField}, MapFields fs (erase gs) → MapFields fs gs
  | [], _, .nil => .nil
  | ⟨_, _, _⟩ :: _, _, .cons op hk hv hfs => .cons op hk.of_erase hv.of_erase hfs.of_erase

theorem RecordFields.of_erase :
    ∀ {gs fs : List RecordField}, RecordFields fs (erase gs) → RecordFields fs gs
  | [], _, .nil => .nil
  | ⟨⟨_, t⟩, _⟩ :: _, _, .cons name s _ hv hfs => .cons name s t hv.of_erase hfs.of_erase

theorem Qualifiers.of_erase : ∀ {rs qs : List Qualifier}, Qualifiers qs (erase rs) →
    Qualifiers qs rs
  | [], _, .nil => .nil
  | .generator _ _ :: _, _, .generator hp he hqs => .generator hp.of_erase he.of_erase hqs.of_erase
  | .binaryGenerator _ _ :: _, _, .binaryGenerator hp he hqs =>
    .binaryGenerator hp.of_erase he.of_erase hqs.of_erase
  | .filter _ :: _, _, .filter he hqs => .filter he.of_erase hqs.of_erase

theorem Afters.of_erase : ∀ {b a : Option After}, Afters a (erase b) → Afters a b
  | none, _, .none => .none
  | some ⟨_, _⟩, _, .some htimeout hbody => .some htimeout.of_erase hbody.of_erase

end

/-! ### Forms -/

theorem ofForm_erase : ∀ f : Located Form, OfForm f (erase f)
  | ⟨.function ⟨name, u⟩ arity cs, s⟩ =>
      .function name arity s .nowhere u .nowhere (clauses_erase cs)
  | ⟨.attribute ⟨name, u⟩ (.exprs es), s⟩ => .exprs name s .nowhere u .nowhere (exprs_erase es)
  | ⟨.attribute ⟨name, u⟩ (.tokens ts), s⟩ => .tokens name ts s .nowhere u .nowhere

theorem OfForm.erase_eq {f g : Located Form} (h : OfForm f g) : erase f = erase g := by
  cases h with
  | function name arity _ _ _ _ hcs =>
      have hform (u s : Span) (cs : List (Located Clause)) :
          erase (⟨.function ⟨name, u⟩ arity cs, s⟩ : Located Form) =
            ⟨.function ⟨name, .nowhere⟩ arity (erase cs), .nowhere⟩ := rfl
      rw [hform, hform, hcs.erase_eq]
  | exprs name _ _ _ _ hes =>
      have hform (u s : Span) (es : List (Located Expr)) :
          erase (⟨.attribute ⟨name, u⟩ (.exprs es), s⟩ : Located Form) =
            ⟨.attribute ⟨name, .nowhere⟩ (.exprs (erase es)), .nowhere⟩ := rfl
      rw [hform, hform, hes.erase_eq]
  | tokens _ _ _ _ _ _ => rfl

theorem OfForm.of_erase : ∀ {g f : Located Form}, OfForm f (erase g) → OfForm f g
  | ⟨.function ⟨_, v⟩ _ _, t⟩, _, .function name arity s _ u _ hcs =>
      .function name arity s t u v hcs.of_erase
  | ⟨.attribute ⟨_, v⟩ (.exprs _), t⟩, _, .exprs name s _ u _ hes =>
      .exprs name s t u v hes.of_erase
  | ⟨.attribute ⟨_, v⟩ (.tokens _), t⟩, _, .tokens name ts s _ u _ => .tokens name ts s t u v

/-- Erasing makes lists of forms the same exactly if they are alike, one by one. -/
theorem erase_forms_eq_iff {fs gs : List (Located Form)} :
    erase fs = erase gs ↔ List.Forall₂ OfForm fs gs := by
  constructor
  · intro h
    induction fs generalizing gs with
    | nil =>
        obtain rfl : gs = [] := List.map_eq_nil_iff.mp h.symm
        exact .nil
    | cons f fs ih =>
        obtain ⟨g, gs, rfl, hg, hgs⟩ := List.map_eq_cons_iff.mp h.symm
        exact .cons (OfForm.of_erase (hg ▸ ofForm_erase f)) (ih hgs.symm)
  · intro h
    induction h with
    | nil => rfl
    | cons hfg _ ih => rw [erase_cons, erase_cons, hfg.erase_eq, ih]

theorem erase_expr_eq_iff {e f : Located Expr} : erase e = erase f ↔ Tree e f :=
  ⟨fun h => Tree.of_erase (h ▸ tree_erase e), Tree.erase_eq⟩

theorem forms_erase (fs : List (Located Form)) : List.Forall₂ OfForm fs (erase fs) :=
  List.forall₂_map_right_iff.mpr (List.forall₂_same.mpr fun f _ => ofForm_erase f)

end Alike

/-! ### Erasing twice -/

theorem eraseParts_eraseParts (e : Expr) : e.eraseParts.eraseParts = e.eraseParts :=
  (Alike.node_erase e).erase_eq.symm

/-- Spans are erased once and for all. -/
theorem erase_erase_forms (fs : List (Located Form)) : erase (erase fs) = erase fs :=
  (Alike.erase_forms_eq_iff.mpr (Alike.forms_erase fs)).symm

/-! ### No span is left -/

namespace Placed

theorem below_nowhere {A : Span → Prop} (h : A .nowhere) : Span.Below A .nowhere .nowhere :=
  ⟨h, Nat.le_refl _, Nat.le_refl _⟩

mutual

/-- After erasing, all spans are nowhere, and any condition that allows that holds. -/
theorem parts_erase : ∀ (e : Expr) {A : Span → Prop}, A .nowhere → parts A e.eraseParts
  | .integer _, _, _ | .float _, _, _ | .char _, _, _ | .string _, _, _ | .atom _, _, _
  | .var _, _, _
  | .recordIndex _ _, _, _ => True.intro
  | .tuple es, _, h => exprs_erase es h
  | .list es tail, _, h => ⟨exprs_erase es h, optional_erase tail h⟩
  | .binary ss, _, h => segments_erase ss h
  | .map base fs, _, h => ⟨optional_erase base h, mapFields_erase fs h⟩
  | .record base _ fs, _, h => ⟨optional_erase base h, recordFields_erase fs h⟩
  | .recordAccess base _ _, _, h => expr_erase base h
  | .matchExpr p v, _, h => ⟨expr_erase p h, expr_erase v h⟩
  | .binaryOp _ a b, _, h => ⟨expr_erase a h, expr_erase b h⟩
  | .unaryOp _ a, _, h => expr_erase a h
  | .call f args, _, h => ⟨expr_erase f h, exprs_erase args h⟩
  | .remote m f, _, h => ⟨expr_erase m h, expr_erase f h⟩
  | .block es, _, h => exprs_erase es h
  | .caseExpr e cs, _, h => ⟨expr_erase e h, clauses_erase cs h⟩
  | .ifExpr cs, _, h => clauses_erase cs h
  | .receiveExpr cs a, _, h => ⟨clauses_erase cs h, after_erase a h⟩
  | .tryExpr es os cs a, _, h =>
    ⟨exprs_erase es h, clauses_erase os h, clauses_erase cs h, exprs_erase a h⟩
  | .catchExpr e, _, h => expr_erase e h
  | .listComp e qs, _, h | .binaryComp e qs, _, h => ⟨expr_erase e h, qualifiers_erase qs h⟩
  | .funExpr _ cs, _, h => clauses_erase cs h
  | .funRef m f a, _, h => ⟨optional_erase m h, expr_erase f h, expr_erase a h⟩
  | .macroUse _ none, _, _ => True.intro
  | .macroUse _ (some args), _, h => exprs_erase args h

theorem expr_erase : ∀ (e : Located Expr) {A : Span → Prop}, A .nowhere → expr A (erase e)
  | ⟨e, s⟩, _, h => by
    rw [erase_expr]
    exact ⟨h, parts_erase e (below_nowhere h)⟩

theorem exprs_erase : ∀ (es : List (Located Expr)) {A : Span → Prop}, A .nowhere →
    exprs A (erase es)
  | [], _, _ => True.intro
  | e :: es, _, h => ⟨expr_erase e h, exprs_erase es h⟩

theorem optional_erase : ∀ (e : Option (Located Expr)) {A : Span → Prop}, A .nowhere →
    optional A (erase e)
  | none, _, _ => True.intro
  | some e, _, h => expr_erase e h

theorem guards_erase : ∀ (gs : List (List (Located Expr))) {A : Span → Prop}, A .nowhere →
    guards A (erase gs)
  | [], _, _ => True.intro
  | g :: gs, _, h => ⟨exprs_erase g h, guards_erase gs h⟩

theorem clauses_erase : ∀ (cs : List (Located Clause)) {A : Span → Prop}, A .nowhere →
    clauses A (erase cs)
  | [], _, _ => True.intro
  | ⟨⟨ps, gs, body⟩, _⟩ :: cs, _, h =>
    have hbelow := below_nowhere h
    ⟨⟨h, exprs_erase ps hbelow, guards_erase gs hbelow, exprs_erase body hbelow⟩,
      clauses_erase cs h⟩

theorem segments_erase : ∀ (ss : List Segment) {A : Span → Prop}, A .nowhere → segments A (erase ss)
  | [], _, _ => True.intro
  | ⟨value, size, _⟩ :: ss, _, h =>
      ⟨⟨expr_erase value h, optional_erase size h⟩, segments_erase ss h⟩

theorem mapFields_erase : ∀ (fs : List MapField) {A : Span → Prop}, A .nowhere →
    mapFields A (erase fs)
  | [], _, _ => True.intro
  | ⟨key, _, value⟩ :: fs, _, h => ⟨⟨expr_erase key h, expr_erase value h⟩, mapFields_erase fs h⟩

theorem recordFields_erase : ∀ (fs : List RecordField) {A : Span → Prop},
    A .nowhere → recordFields A (erase fs)
  | [], _, _ => True.intro
  | ⟨_, value⟩ :: fs, _, h => ⟨⟨h, expr_erase value h⟩, recordFields_erase fs h⟩

theorem qualifiers_erase : ∀ (qs : List Qualifier) {A : Span → Prop}, A .nowhere →
    qualifiers A (erase qs)
  | [], _, _ => True.intro
  | .generator p e :: qs, _, h | .binaryGenerator p e :: qs, _, h =>
    ⟨⟨expr_erase p h, expr_erase e h⟩, qualifiers_erase qs h⟩
  | .filter e :: qs, _, h => ⟨expr_erase e h, qualifiers_erase qs h⟩

theorem after_erase : ∀ (a : Option After) {A : Span → Prop}, A .nowhere → after A (erase a)
  | none, _, _ => True.intro
  | some ⟨timeout, body⟩, _, h => ⟨expr_erase timeout h, exprs_erase body h⟩

end

theorem form_erase {A : Span → Prop} (h : A .nowhere) : ∀ f : Located Form, form A (erase f)
  | ⟨.function _ _ cs, _⟩ => ⟨h, below_nowhere h, clauses_erase cs (below_nowhere h)⟩
  | ⟨.attribute _ (.exprs es), _⟩ => ⟨h, below_nowhere h, exprs_erase es (below_nowhere h)⟩
  | ⟨.attribute _ (.tokens _), _⟩ => ⟨h, below_nowhere h⟩

end Placed

/-! ### Exactness -/

/-- Erasing the spans of forms or of an expression leaves `Span.nowhere` in every place and changes
nothing else, and it makes two of them equal exactly if they differ at most in their spans. -/
theorem eraseSpans_exact :
    (∀ fs : List (Located Form),
      (∀ f ∈ eraseSpans fs, Placed.form (· = .nowhere) f) ∧
      List.Forall₂ Alike.OfForm fs (eraseSpans fs)) ∧
    (∀ fs gs : List (Located Form),
      eraseSpans fs = eraseSpans gs ↔ List.Forall₂ Alike.OfForm fs gs) ∧
    (∀ e : Located Expr, Placed.expr (· = .nowhere) (eraseExprSpans e) ∧
      Alike.Tree e (eraseExprSpans e)) ∧
    (∀ e f : Located Expr, eraseExprSpans e = eraseExprSpans f ↔ Alike.Tree e f) := by
  refine ⟨fun fs => ⟨?_, ?_⟩, fun fs gs => ?_, fun e => ⟨?_, Alike.tree_erase e⟩, fun e f => ?_⟩
  · rw [eraseSpans_eq]
    intro f hf
    obtain ⟨g, -, rfl⟩ := List.mem_map.mp hf
    exact Placed.form_erase (A := (· = .nowhere)) rfl g
  · rw [eraseSpans_eq]
    exact Alike.forms_erase fs
  · rw [eraseSpans_eq, eraseSpans_eq]
    exact Alike.erase_forms_eq_iff
  · exact Placed.expr_erase (A := (· = .nowhere)) e rfl
  · exact Alike.erase_expr_eq_iff

end ErlangFragment
