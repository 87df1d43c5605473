import ErlangFragment.Printer

/-! The equations of the layout of expressions, one for each kind of node and of list. -/

namespace ErlangFragment.Printer

open Layout

variable (level : Nat) (e f : Located Expr) (es : List (Located Expr)) (cs : List (Located Clause))
  (qs : List Qualifier)

/-! ### Nodes -/

@[simp] theorem node_integer (n : IntegerLiteral) :
    node level (.integer n) = [.token (.integer n)] := rfl

@[simp] theorem node_float (x : Binary64) : node level (.float x) = [.token (.float x)] := rfl

@[simp] theorem node_char (c : Char) : node level (.char c) = [.token (.char c)] := rfl

@[simp] theorem node_string (s : String) : node level (.string s) = [.token (.string s)] := rfl

@[simp] theorem node_atom (a : String) : node level (.atom a) = atom a := rfl

@[simp] theorem node_var (v : String) : node level (.var v) = var v := rfl

@[simp] theorem node_tuple :
    node level (.tuple es) = enclose .leftBrace .rightBrace (commas (exprs level es)) := rfl

@[simp] theorem node_list (tail : Option (Located Expr)) :
    node level (.list es tail) =
      enclose .leftBracket .rightBracket (commas (exprs level es) ++ listTail level tail) := rfl

@[simp] theorem node_binary (ss : List Segment) :
    node level (.binary ss) = enclose .lessLess .greaterGreater (commas (segments level ss)) := rfl

@[simp] theorem node_map (b : Option (Located Expr)) (fs : List MapField) :
    node level (.map b fs) = optionalBase level b ++ symbol .hash ++
      enclose .leftBrace .rightBrace (commas (mapFields level fs)) := rfl

@[simp] theorem node_record (b : Option (Located Expr)) (n : String) (fs : List RecordField) :
    node level (.record b n fs) = optionalBase level b ++ symbol .hash ++ atom n ++
      enclose .leftBrace .rightBrace (commas (recordFields level fs)) := rfl

@[simp] theorem node_recordIndex (n field : String) :
    node level (.recordIndex n field) = symbol .hash ++ atom n ++ symbol .dot ++ atom field := rfl

@[simp] theorem node_recordAccess (n field : String) :
    node level (.recordAccess e n field) =
      base level e ++ symbol .hash ++ atom n ++ symbol .dot ++ atom field := rfl

@[simp] theorem node_matchExpr :
    node level (.matchExpr e f) =
      parensIf (leftNeedsParens matchPower false e.node) (expr level e) ++
        spaced (.symbol .equal) ++
        parensIf (rightNeedsParens matchPower f.node) (expr level f) := rfl

@[simp] theorem node_binaryOp (op : BinaryOp) :
    node level (.binaryOp op e f) =
      parensIf (leftNeedsParens op.power op.isComparison e.node) (expr level e) ++
        spaced op.token ++
        parensIf (rightNeedsParens op.power f.node) (expr level f) := rfl

@[simp] theorem node_unaryOp (op : UnaryOp) :
    node level (.unaryOp op e) =
      [.token op.token, .blank] ++ parensIf (operandNeedsParens e.node) (expr level e) := rfl

@[simp] theorem node_call :
    node level (.call e es) = base level e ++ parens (commas (exprs level es)) := rfl

@[simp] theorem node_remote :
    node level (.remote e f) = base level e ++ symbol .colon ++ bare level f := rfl

@[simp] theorem node_block :
    node level (.block es) =
      keyword .begin ++ lines (level + 1) .comma (exprs (level + 1) es) ++ endLine level := rfl

@[simp] theorem node_caseExpr :
    node level (.caseExpr e cs) =
      keyword .case ++ [.blank] ++ expr level e ++ [.blank] ++ keyword .of ++
        lines (level + 1) .semicolon (clauses .patterns (level + 1) cs) ++ endLine level := rfl

@[simp] theorem node_ifExpr :
    node level (.ifExpr cs) =
      keyword .if_ ++ lines (level + 1) .semicolon (clauses .guardsOnly (level + 1) cs) ++
        endLine level := rfl

@[simp] theorem node_receiveExpr (a : Option After) :
    node level (.receiveExpr cs a) =
      keyword .receive ++ lines (level + 1) .semicolon (clauses .patterns (level + 1) cs) ++
        section_ level .after (after level a) ++ endLine level := rfl

@[simp] theorem node_tryExpr (os : List (Located Clause)) (as : List (Located Expr)) :
    node level (.tryExpr es os cs as) =
      keyword .try_ ++ lines (level + 1) .comma (exprs (level + 1) es) ++
        section_ level .of (lines (level + 1) .semicolon (clauses .patterns (level + 1) os)) ++
        section_ level .catch_
          (lines (level + 1) .semicolon (clauses .catchPatterns (level + 1) cs)) ++
        section_ level .after (lines (level + 1) .comma (exprs (level + 1) as)) ++
          endLine level := rfl

@[simp] theorem node_catchExpr :
    node level (.catchExpr e) = keyword .catch_ ++ [.blank] ++ expr level e := rfl

@[simp] theorem node_listComp :
    node level (.listComp e qs) =
      enclose .leftBracket .rightBracket
        (expr level e ++ spaced (.symbol .pipePipe) ++ commas (qualifiers level qs)) := rfl

@[simp] theorem node_binaryComp :
    node level (.binaryComp e qs) =
      enclose .lessLess .greaterGreater
        (bare level e ++ spaced (.symbol .pipePipe) ++ commas (qualifiers level qs)) := rfl

@[simp] theorem node_funExpr :
    node level (.funExpr none cs) = funLayout level [] (clauses .args (level + 1) cs) := rfl

@[simp] theorem node_namedFun (n : String) :
    node level (.funExpr (some n) cs) =
      funLayout level (var n) (clauses .args (level + 1) cs) := rfl

@[simp] theorem node_funRef (m : Option (Located Expr)) :
    node level (.funRef m e f) =
      keyword .fun_ ++ [.blank] ++ funModule level m ++ expr level e ++ symbol .slash ++
        expr level f :=
  rfl

@[simp] theorem node_macroName (n : String) :
    node level (.macroUse n none) = symbol .question ++ macroName n := rfl

@[simp] theorem node_macroCall (n : String) :
    node level (.macroUse n (some es)) =
      symbol .question ++ macroName n ++ parens (commas (exprs level es)) := rfl

/-! ### Parts of nodes -/

theorem expr_mk (e : Expr) (s : Span) : expr level ⟨e, s⟩ = node level e := rfl

theorem base_eq : base level e = parensIf (baseNeedsParens e.node) (expr level e) := by
  cases e
  rfl

theorem bare_eq : bare level e = parensIf (!isBare e.node) (expr level e) := by
  cases e
  rfl

@[simp] theorem exprs_nil : exprs level [] = [] := rfl

@[simp] theorem exprs_cons : exprs level (e :: es) = expr level e :: exprs level es := rfl

@[simp] theorem guards_nil : guards level [] = [] := rfl

@[simp] theorem guards_cons (g : List (Located Expr)) (gs : List (List (Located Expr))) :
    guards level (g :: gs) = commas (exprs level g) :: guards level gs := rfl

@[simp] theorem clauses_nil (head : Head) : clauses head level [] = [] := rfl

@[simp] theorem optionalBase_none : optionalBase level none = [] := rfl

@[simp] theorem optionalBase_some : optionalBase level (some e) = base level e := rfl

@[simp] theorem listTail_none : listTail level none = [] := rfl

@[simp] theorem listTail_some :
    listTail level (some e) = spaced (.symbol .pipe) ++ expr level e := rfl

@[simp] theorem funModule_none : funModule level none = [] := rfl

@[simp] theorem funModule_some : funModule level (some e) = expr level e ++ symbol .colon := rfl

@[simp] theorem segmentSize_none : segmentSize level none = [] := rfl

@[simp] theorem segmentSize_some :
    segmentSize level (some e) = symbol .colon ++ bare level e := rfl

@[simp] theorem after_none : after level none = [] := rfl

@[simp] theorem after_some (timeout : Located Expr) (body : List (Located Expr)) :
    after level (some ⟨timeout, body⟩) =
      .newline (level + 1) :: expr (level + 1) timeout ++
        arrowBody (level + 1) (exprs (level + 2) body) := rfl

end ErlangFragment.Printer
