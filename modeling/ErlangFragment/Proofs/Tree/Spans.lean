import ErlangFragment.Tree

/-! Where the spans of a tree may be. Whatever is asked of a span, the spans below it have to fulfil
too, and they lie within it. -/

namespace ErlangFragment

namespace Span

/-- The span `s` lies in the span `t`. -/
def Within (s t : Span) : Prop := t.start ≤ s.start ∧ s.stop ≤ t.stop

/-- What is asked of the spans below `s`: what is asked of `s`, and that they lie within it. -/
def Below (A : Span → Prop) (s : Span) : Span → Prop := fun t => A t ∧ t.Within s

/-- A weaker condition on the spans at the top holds as well. -/
theorem Below.mono {A B : Span → Prop} {s : Span} (h : ∀ t, A t → B t) (t : Span)
    (ht : Below A s t) :
    Below B s t :=
  ⟨h t ht.1, ht.2⟩

end Span

open ErlangFragment.Span

namespace Placed

mutual

/-- All spans below the node are as `A` asks, and each lies within those around it. -/
def parts (A : Span → Prop) : Expr → Prop
  | .integer _ | .float _ | .char _ | .string _ | .atom _ | .var _ | .recordIndex _ _ => True
  | .tuple es => exprs A es
  | .list es tail => exprs A es ∧ optional A tail
  | .binary ss => segments A ss
  | .map base fs => optional A base ∧ mapFields A fs
  | .record base _ fs => optional A base ∧ recordFields A fs
  | .recordAccess base _ _ => expr A base
  | .matchExpr p v => expr A p ∧ expr A v
  | .binaryOp _ a b => expr A a ∧ expr A b
  | .unaryOp _ a => expr A a
  | .call f args => expr A f ∧ exprs A args
  | .remote m f => expr A m ∧ expr A f
  | .block es => exprs A es
  | .caseExpr e cs => expr A e ∧ clauses A cs
  | .ifExpr cs => clauses A cs
  | .receiveExpr cs a => clauses A cs ∧ after A a
  | .tryExpr es os cs a => exprs A es ∧ clauses A os ∧ clauses A cs ∧ exprs A a
  | .catchExpr e => expr A e
  | .listComp e qs => expr A e ∧ qualifiers A qs
  | .binaryComp e qs => expr A e ∧ qualifiers A qs
  | .funExpr _ cs => clauses A cs
  | .funRef m f a => optional A m ∧ expr A f ∧ expr A a
  | .macroUse _ none => True
  | .macroUse _ (some args) => exprs A args

def expr (A : Span → Prop) : Located Expr → Prop
  | ⟨e, s⟩ => A s ∧ parts (Below A s) e

def exprs (A : Span → Prop) : List (Located Expr) → Prop
  | [] => True
  | e :: es => expr A e ∧ exprs A es

def optional (A : Span → Prop) : Option (Located Expr) → Prop
  | none => True
  | some e => expr A e

def guards (A : Span → Prop) : List (List (Located Expr)) → Prop
  | [] => True
  | g :: gs => exprs A g ∧ guards A gs

def clauses (A : Span → Prop) : List (Located Clause) → Prop
  | [] => True
  | ⟨⟨ps, gs, body⟩, s⟩ :: cs =>
    (A s ∧ exprs (Below A s) ps ∧ guards (Below A s) gs ∧ exprs (Below A s) body) ∧ clauses A cs

def segments (A : Span → Prop) : List Segment → Prop
  | [] => True
  | ⟨value, size, _⟩ :: ss => (expr A value ∧ optional A size) ∧ segments A ss

def mapFields (A : Span → Prop) : List MapField → Prop
  | [] => True
  | ⟨key, _, value⟩ :: fs => (expr A key ∧ expr A value) ∧ mapFields A fs

def recordFields (A : Span → Prop) : List RecordField → Prop
  | [] => True
  | ⟨name, value⟩ :: fs => (A name.span ∧ expr A value) ∧ recordFields A fs

def qualifiers (A : Span → Prop) : List Qualifier → Prop
  | [] => True
  | .generator p e :: qs => (expr A p ∧ expr A e) ∧ qualifiers A qs
  | .binaryGenerator p e :: qs => (expr A p ∧ expr A e) ∧ qualifiers A qs
  | .filter e :: qs => expr A e ∧ qualifiers A qs

def after (A : Span → Prop) : Option After → Prop
  | none => True
  | some ⟨timeout, body⟩ => expr A timeout ∧ exprs A body

end

/-- All spans of the form are as `A` asks, and each lies within those around it. -/
def form (A : Span → Prop) : Located Form → Prop
  | ⟨.function name _ cs, s⟩ => A s ∧ Below A s name.span ∧ clauses (Below A s) cs
  | ⟨.attribute name (.exprs es), s⟩ => A s ∧ Below A s name.span ∧ exprs (Below A s) es
  | ⟨.attribute name (.tokens _), s⟩ => A s ∧ Below A s name.span

/-! ### Weaker demands -/

mutual

/-- A weaker condition on the spans holds at every depth. The span above a part belongs to the
condition, so it is carried down as one that implies the other. -/
theorem parts_mono : ∀ (e : Expr) {A B : Span → Prop}, (∀ t, A t → B t) → parts A e → parts B e
  | .integer _, _, _, _, _ | .float _, _, _, _, _ | .char _, _, _, _, _ | .string _, _, _, _, _
  | .atom _, _, _, _, _ | .var _, _, _, _, _ | .recordIndex _ _, _, _, _, _ => True.intro
  | .tuple es, _, _, h, he => exprs_mono es h he
  | .list es tail, _, _, h, he => ⟨exprs_mono es h he.1, optional_mono tail h he.2⟩
  | .binary ss, _, _, h, he => segments_mono ss h he
  | .map base fs, _, _, h, he => ⟨optional_mono base h he.1, mapFields_mono fs h he.2⟩
  | .record base _ fs, _, _, h, he => ⟨optional_mono base h he.1, recordFields_mono fs h he.2⟩
  | .recordAccess base _ _, _, _, h, he => expr_mono base h he
  | .matchExpr p v, _, _, h, he => ⟨expr_mono p h he.1, expr_mono v h he.2⟩
  | .binaryOp _ a b, _, _, h, he => ⟨expr_mono a h he.1, expr_mono b h he.2⟩
  | .unaryOp _ a, _, _, h, he => expr_mono a h he
  | .call f args, _, _, h, he => ⟨expr_mono f h he.1, exprs_mono args h he.2⟩
  | .remote m f, _, _, h, he => ⟨expr_mono m h he.1, expr_mono f h he.2⟩
  | .block es, _, _, h, he => exprs_mono es h he
  | .caseExpr e cs, _, _, h, he => ⟨expr_mono e h he.1, clauses_mono cs h he.2⟩
  | .ifExpr cs, _, _, h, he => clauses_mono cs h he
  | .receiveExpr cs a, _, _, h, he => ⟨clauses_mono cs h he.1, after_mono a h he.2⟩
  | .tryExpr es os cs a, _, _, h, ⟨h₁, h₂, h₃, h₄⟩ =>
    ⟨exprs_mono es h h₁, clauses_mono os h h₂, clauses_mono cs h h₃, exprs_mono a h h₄⟩
  | .catchExpr e, _, _, h, he => expr_mono e h he
  | .listComp e qs, _, _, h, he | .binaryComp e qs, _, _, h, he =>
    ⟨expr_mono e h he.1, qualifiers_mono qs h he.2⟩
  | .funExpr _ cs, _, _, h, he => clauses_mono cs h he
  | .funRef m f a, _, _, h, ⟨h₁, h₂, h₃⟩ =>
    ⟨optional_mono m h h₁, expr_mono f h h₂, expr_mono a h h₃⟩
  | .macroUse _ none, _, _, _, _ => True.intro
  | .macroUse _ (some args), _, _, h, he => exprs_mono args h he

theorem expr_mono : ∀ (e : Located Expr) {A B : Span → Prop}, (∀ t, A t → B t) → expr A e → expr B e
  | ⟨e, s⟩, _, _, h, he => ⟨h s he.1, parts_mono e (Below.mono h) he.2⟩

theorem exprs_mono : ∀ (es : List (Located Expr)) {A B : Span → Prop},
    (∀ t, A t → B t) → exprs A es → exprs B es
  | [], _, _, _, _ => True.intro
  | e :: es, _, _, h, he => ⟨expr_mono e h he.1, exprs_mono es h he.2⟩

theorem optional_mono : ∀ (e : Option (Located Expr)) {A B : Span → Prop},
    (∀ t, A t → B t) → optional A e → optional B e
  | none, _, _, _, _ => True.intro
  | some e, _, _, h, he => expr_mono e h he

theorem guards_mono : ∀ (gs : List (List (Located Expr))) {A B : Span → Prop},
    (∀ t, A t → B t) → guards A gs → guards B gs
  | [], _, _, _, _ => True.intro
  | g :: gs, _, _, h, he => ⟨exprs_mono g h he.1, guards_mono gs h he.2⟩

theorem clauses_mono : ∀ (cs : List (Located Clause)) {A B : Span → Prop},
    (∀ t, A t → B t) → clauses A cs → clauses B cs
  | [], _, _, _, _ => True.intro
  | ⟨⟨ps, gs, body⟩, s⟩ :: cs, _, _, h, ⟨⟨hs, hps, hgs, hbody⟩, hcs⟩ =>
    ⟨⟨h s hs, exprs_mono ps (Below.mono h) hps, guards_mono gs (Below.mono h) hgs,
      exprs_mono body (Below.mono h) hbody⟩, clauses_mono cs h hcs⟩

theorem segments_mono : ∀ (ss : List Segment) {A B : Span → Prop},
    (∀ t, A t → B t) → segments A ss → segments B ss
  | [], _, _, _, _ => True.intro
  | ⟨value, size, _⟩ :: ss, _, _, h, he =>
    ⟨⟨expr_mono value h he.1.1, optional_mono size h he.1.2⟩, segments_mono ss h he.2⟩

theorem mapFields_mono : ∀ (fs : List MapField) {A B : Span → Prop},
    (∀ t, A t → B t) → mapFields A fs → mapFields B fs
  | [], _, _, _, _ => True.intro
  | ⟨key, _, value⟩ :: fs, _, _, h, he =>
    ⟨⟨expr_mono key h he.1.1, expr_mono value h he.1.2⟩, mapFields_mono fs h he.2⟩

theorem recordFields_mono : ∀ (fs : List RecordField) {A B : Span → Prop},
    (∀ t, A t → B t) → recordFields A fs → recordFields B fs
  | [], _, _, _, _ => True.intro
  | ⟨_, value⟩ :: fs, _, _, h, he =>
      ⟨⟨h _ he.1.1, expr_mono value h he.1.2⟩, recordFields_mono fs h he.2⟩

theorem qualifiers_mono : ∀ (qs : List Qualifier) {A B : Span → Prop},
    (∀ t, A t → B t) → qualifiers A qs → qualifiers B qs
  | [], _, _, _, _ => True.intro
  | .generator p e :: qs, _, _, h, he | .binaryGenerator p e :: qs, _, _, h, he =>
    ⟨⟨expr_mono p h he.1.1, expr_mono e h he.1.2⟩, qualifiers_mono qs h he.2⟩
  | .filter e :: qs, _, _, h, he => ⟨expr_mono e h he.1, qualifiers_mono qs h he.2⟩

theorem after_mono : ∀ (a : Option After) {A B : Span → Prop},
    (∀ t, A t → B t) → after A a → after B a
  | none, _, _, _, _ => True.intro
  | some ⟨timeout, body⟩, _, _, h, he => ⟨expr_mono timeout h he.1, exprs_mono body h he.2⟩

end

/-- A weaker condition holds on the spans of a form. -/
theorem form_mono {A B : Span → Prop} (h : ∀ t, A t → B t) : ∀ f, form A f → form B f
  | ⟨.function _ _ cs, s⟩, ⟨hs, hname, hcs⟩ =>
    ⟨h s hs, Below.mono h _ hname, clauses_mono cs (Below.mono h) hcs⟩
  | ⟨.attribute _ (.exprs es), s⟩, ⟨hs, hname, hes⟩ =>
    ⟨h s hs, Below.mono h _ hname, exprs_mono es (Below.mono h) hes⟩
  | ⟨.attribute _ (.tokens _), s⟩, ⟨hs, hname⟩ => ⟨h s hs, Below.mono h _ hname⟩

/-! ### Lists -/

variable {A : Span → Prop}

/-- What holds of the spans of a list holds of each of its members. -/
theorem exprs_iff {es : List (Located Expr)} : exprs A es ↔ ∀ e ∈ es, expr A e := by
  induction es with
  | nil => simp [exprs]
  | cons e es ih => simp [exprs, ih]

theorem guards_iff {gs : List (List (Located Expr))} : guards A gs ↔ ∀ g ∈ gs, exprs A g := by
  induction gs with
  | nil => simp [guards]
  | cons g gs ih => simp [guards, ih]

theorem clauses_iff {cs : List (Located Clause)} : clauses A cs ↔ ∀ c ∈ cs, clauses A [c] := by
  induction cs with
  | nil => simp [clauses]
  | cons c cs ih =>
      obtain ⟨⟨_, _, _⟩, _⟩ := c
      simp [clauses, ih]

theorem segments_iff {ss : List Segment} : segments A ss ↔ ∀ s ∈ ss, segments A [s] := by
  induction ss with
  | nil => simp [segments]
  | cons s ss ih =>
      obtain ⟨_, _, _⟩ := s
      simp [segments, ih]

theorem mapFields_iff {fs : List MapField} : mapFields A fs ↔ ∀ f ∈ fs, mapFields A [f] := by
  induction fs with
  | nil => simp [mapFields]
  | cons f fs ih =>
      obtain ⟨_, _, _⟩ := f
      simp [mapFields, ih]

theorem recordFields_iff {fs : List RecordField} :
    recordFields A fs ↔ ∀ f ∈ fs, recordFields A [f] := by
  induction fs with
  | nil => simp [recordFields]
  | cons f fs ih =>
      obtain ⟨_, _⟩ := f
      simp [recordFields, ih]

theorem qualifiers_iff {qs : List Qualifier} : qualifiers A qs ↔ ∀ q ∈ qs, qualifiers A [q] := by
  induction qs with
  | nil => simp [qualifiers]
  | cons q qs ih => cases q <;> simp [qualifiers, ih]

end Placed

end ErlangFragment
