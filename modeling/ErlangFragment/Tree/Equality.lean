import ErlangFragment.Tree

/-! Equality of trees with their spans, where floats are compared as numbers: `0.0` equals `-0.0`,
and what is not a number equals nothing. -/

namespace ErlangFragment.Equality

def token : Token → Token → Bool
  | .float x, .float y => x.numericEq y
  | t, u => decide (t = u)

def tokens : List Token → List Token → Bool
  | [], [] => true
  | t :: ts, u :: us => token t u && tokens ts us
  | _, _ => false

mutual

def node : Expr → Expr → Bool
  | .integer m, e => match e with | .integer n => decide (m = n) | _ => false
  | .float x, e => match e with | .float y => x.numericEq y | _ => false
  | .char c, e => match e with | .char d => decide (c = d) | _ => false
  | .string s, e => match e with | .string t => decide (s = t) | _ => false
  | .atom a, e => match e with | .atom b => decide (a = b) | _ => false
  | .var v, e => match e with | .var w => decide (v = w) | _ => false
  | .tuple es, e => match e with | .tuple fs => exprs es fs | _ => false
  | .list es s, e => match e with | .list fs t => exprs es fs && optional s t | _ => false
  | .binary ss, e => match e with | .binary ts => segments ss ts | _ => false
  | .map a fs, e => match e with | .map b gs => optional a b && mapFields fs gs | _ => false
  | .record a m fs, e =>
    match e with
    | .record b n gs => optional a b && decide (m = n) && recordFields fs gs
    | _ => false
  | .recordIndex m f, e =>
    match e with
    | .recordIndex n g => decide (m = n) && decide (f = g)
    | _ => false
  | .recordAccess a m f, e =>
    match e with
    | .recordAccess b n g => expr a b && decide (m = n) && decide (f = g)
    | _ => false
  | .matchExpr p v, e => match e with | .matchExpr q w => expr p q && expr v w | _ => false
  | .binaryOp o a b, e =>
    match e with
    | .binaryOp p c d => decide (o = p) && expr a c && expr b d
    | _ => false
  | .unaryOp o a, e => match e with | .unaryOp p b => decide (o = p) && expr a b | _ => false
  | .call f as, e => match e with | .call g bs => expr f g && exprs as bs | _ => false
  | .remote m f, e => match e with | .remote n g => expr m n && expr f g | _ => false
  | .block es, e => match e with | .block fs => exprs es fs | _ => false
  | .caseExpr a cs, e => match e with | .caseExpr b ds => expr a b && clauses cs ds | _ => false
  | .ifExpr cs, e => match e with | .ifExpr ds => clauses cs ds | _ => false
  | .receiveExpr cs a, e =>
    match e with
    | .receiveExpr ds b => clauses cs ds && after a b
    | _ => false
  | .tryExpr as os cs es, e =>
    match e with
    | .tryExpr bs ps ds fs => exprs as bs && clauses os ps && clauses cs ds && exprs es fs
    | _ => false
  | .catchExpr a, e => match e with | .catchExpr b => expr a b | _ => false
  | .listComp a qs, e => match e with | .listComp b rs => expr a b && qualifiers qs rs | _ => false
  | .binaryComp a qs, e =>
    match e with
    | .binaryComp b rs => expr a b && qualifiers qs rs
    | _ => false
  | .funExpr m cs, e => match e with | .funExpr n ds => decide (m = n) && clauses cs ds | _ => false
  | .funRef m f a, e =>
    match e with
    | .funRef n g b => optional m n && expr f g && expr a b
    | _ => false
  | .macroUse m none, e => match e with | .macroUse n none => decide (m = n) | _ => false
  | .macroUse m (some as), e =>
    match e with
    | .macroUse n (some bs) => decide (m = n) && exprs as bs
    | _ => false

def expr : Located Expr → Located Expr → Bool
  | ⟨e, s⟩, ⟨f, t⟩ => node e f && decide (s = t)

def exprs : List (Located Expr) → List (Located Expr) → Bool
  | [], [] => true
  | e :: es, f :: fs => expr e f && exprs es fs
  | _, _ => false

def optional : Option (Located Expr) → Option (Located Expr) → Bool
  | none, none => true
  | some e, some f => expr e f
  | _, _ => false

def guards : List (List (Located Expr)) → List (List (Located Expr)) → Bool
  | [], [] => true
  | g :: gs, h :: hs => exprs g h && guards gs hs
  | _, _ => false

def clauses : List (Located Clause) → List (Located Clause) → Bool
  | [], [] => true
  | ⟨⟨ps, gs, as⟩, s⟩ :: cs, ⟨⟨qs, hs, bs⟩, t⟩ :: ds =>
    exprs ps qs && guards gs hs && exprs as bs && decide (s = t) && clauses cs ds
  | _, _ => false

def segments : List Segment → List Segment → Bool
  | [], [] => true
  | ⟨a, m, s⟩ :: ss, ⟨b, n, t⟩ :: ts => expr a b && optional m n && decide (s = t) && segments ss ts
  | _, _ => false

def mapFields : List MapField → List MapField → Bool
  | [], [] => true
  | ⟨a, o, v⟩ :: fs, ⟨b, p, w⟩ :: gs => expr a b && decide (o = p) && expr v w && mapFields fs gs
  | _, _ => false

def recordFields : List RecordField → List RecordField → Bool
  | [], [] => true
  | ⟨m, v⟩ :: fs, ⟨n, w⟩ :: gs => decide (m = n) && expr v w && recordFields fs gs
  | _, _ => false

def qualifiers : List Qualifier → List Qualifier → Bool
  | [], [] => true
  | .generator p e :: qs, .generator q f :: rs => expr p q && expr e f && qualifiers qs rs
  | .binaryGenerator p e :: qs, .binaryGenerator q f :: rs =>
      expr p q && expr e f && qualifiers qs rs
  | .filter e :: qs, .filter f :: rs => expr e f && qualifiers qs rs
  | _, _ => false

def after : Option After → Option After → Bool
  | none, none => true
  | some ⟨a, es⟩, some ⟨b, fs⟩ => expr a b && exprs es fs
  | _, _ => false

end

def attributeValue : AttributeValue → AttributeValue → Bool
  | .exprs as, .exprs bs => exprs as bs
  | .tokens ts, .tokens us => tokens ts us
  | _, _ => false

def form : Located Form → Located Form → Bool
  | ⟨.function m a cs, s⟩, ⟨.function n b ds, t⟩ =>
    decide (m = n) && decide (a = b) && clauses cs ds && decide (s = t)
  | ⟨.attribute m v, s⟩, ⟨.attribute n w, t⟩ =>
      decide (m = n) && attributeValue v w && decide (s = t)
  | _, _ => false

def forms : List (Located Form) → List (Located Form) → Bool
  | [], [] => true
  | f :: fs, g :: gs => form f g && forms fs gs
  | _, _ => false

end ErlangFragment.Equality

namespace ErlangFragment

instance : BEq (Located Expr) := ⟨Equality.expr⟩

instance : BEq (Located Form) := ⟨Equality.form⟩

end ErlangFragment
