import ErlangFragment.Proofs.Grammar.Forms

/-! Brackets and terminators. Every phrase closes the brackets that it opens and has no terminator
in it, and a token sequence is cut into forms again where the forms end. The forms of two sequences
one after the other are those of the one and those of the other. -/

namespace ErlangFragment.Grammar

/-- How many more brackets the tokens open than they close, as a word. -/
def openBrackets : List (Located Token) → Int32
  | [] => 0
  | t :: ts => bracketStep t.node + openBrackets ts

/-- There is no terminator among the tokens, and as many brackets are closed as opened. -/
structure Balanced (ts : List (Located Token)) : Prop where
  noTerminator : ∀ t ∈ ts, t.node ≠ .terminator
  closed : openBrackets ts = 0

/-- Tokens that are neither a bracket nor a terminator. -/
def IsLevel (t : Token) : Prop := t ≠ .terminator ∧ bracketStep t = 0

/-- The brackets and the terminator. -/
def delimiters : List Token :=
  [.terminator, .symbol .leftParen, .symbol .rightParen, .symbol .leftBracket,
    .symbol .rightBracket, .symbol .leftBrace, .symbol .rightBrace, .symbol .lessLess,
    .symbol .greaterGreater]

/-- The separators in the phrase are neither brackets nor terminators. -/
def Phrase.IsLevel : Phrase → Prop
  | more s p | separated s p | part _ s p => Grammar.IsLevel s ∧ p.IsLevel
  | braced p => p.IsLevel
  | _ => True

section

variable {t : Located Token} {ts us : List (Located Token)}

@[simp] theorem openBrackets_nil : openBrackets [] = 0 := rfl

@[simp] theorem openBrackets_cons (t : Located Token) (ts : List (Located Token)) :
    openBrackets (t :: ts) = bracketStep t.node + openBrackets ts := rfl

/-- Depths add up, as words. -/
@[simp] theorem openBrackets_append (ts us : List (Located Token)) :
    openBrackets (ts ++ us) = openBrackets ts + openBrackets us := by
  induction ts with
  | nil => simp
  | cons t ts ih => simp [ih, Int32.add_assoc]

/-- No terminator, and all that is opened is closed. -/
theorem balanced_iff : Balanced ts ↔ (∀ t ∈ ts, t.node ≠ .terminator) ∧ openBrackets ts = 0 :=
  ⟨fun h => ⟨h.1, h.2⟩, fun h => ⟨h.1, h.2⟩⟩

theorem balanced_of_level (h : ∀ t ∈ ts, IsLevel t.node) : Balanced ts := by
  refine ⟨fun t ht => (h t ht).1, ?_⟩
  induction ts with
  | nil => rfl
  | cons t ts ih =>
      obtain ⟨ht, hts⟩ := List.forall_mem_cons.mp h
      rw [openBrackets_cons, ht.2, ih hts]
      rfl

theorem Balanced.append (h : Balanced ts) (h' : Balanced us) : Balanced (ts ++ us) :=
  ⟨fun t ht => (List.mem_append.mp ht).elim (h.noTerminator t) (h'.noTerminator t),
    by rw [openBrackets_append, h.closed, h'.closed]; rfl⟩

theorem Balanced.cons (h : Balanced ts) (ht : IsLevel t.node) : Balanced (t :: ts) := by
  have hone : Balanced [t] := balanced_of_level (by simpa using ht)
  exact hone.append h

/-- Parentheses around what is balanced. -/
theorem Balanced.parens {l r : Located Token} (h : Balanced ts) (hl : l.node = .symbol .leftParen)
    (hr : r.node = .symbol .rightParen) : Balanced (l :: (ts ++ [r])) := by
  obtain ⟨hno, hclosed⟩ := h
  refine ⟨?_, by simp [hl, hr, hclosed, bracketStep]⟩
  simpa [hl, hr, or_imp, forall_and] using hno

theorem mem_delimiters {k : Token} (h : ¬ IsLevel k) : k ∈ delimiters := by
  by_cases hk : k = .terminator
  · simp [hk, delimiters]
  · have hstep : bracketStep k ≠ 0 := fun hstep => h ⟨hk, hstep⟩
    unfold bracketStep at hstep
    split at hstep <;> simp_all [delimiters]

/-- A token of a class that none of these tokens belongs to is none of them. -/
theorem not_mem_of_some {α : Type} {read? : Token → Option α} {k : Token} {a : α} {ks : List Token}
    (h : read? k = some a) (hnone : ∀ d ∈ ks, (read? d).isNone = true) : k ∉ ks := by
  intro hmem
  have hk := hnone k hmem
  rw [h] at hk
  cases hk

/-- What some reader of tokens takes is no delimiter, if the reader takes no delimiter. -/
theorem isLevel_of_some {α : Type} {read? : Token → Option α} {k : Token} {a : α}
    (h : read? k = some a) (hnone : ∀ d ∈ delimiters, (read? d).isNone = true) : IsLevel k := by
  by_contra hlevel
  exact not_mem_of_some h hnone (mem_delimiters hlevel)

theorem isLevel_of_connective? {k : Token} {op : Option BinaryOp} (h : connective? k = some op) :
    IsLevel k := isLevel_of_some h (by decide)

theorem isLevel_of_unaryOp {k : Token} {op : UnaryOp} (h : UnaryOp.ofToken? k = some op) :
    IsLevel k :=
  isLevel_of_some h (by decide)

theorem isLevel_of_simple? {k : Token} {e : Expr} (h : simple? k = some e) : IsLevel k :=
  isLevel_of_some h (by decide)

theorem isLevel_of_name {k : Token} {name : String} (h : k = .atom name ∨ k = .var name) :
    IsLevel k := by
  rcases h with rfl | rfl <;> exact ⟨by simp, rfl⟩

theorem StringRun.isString {texts : List String} (h : StringRun ts texts) (ht : t ∈ ts) :
    ∃ text, t.node = .string text := by
  have hmem : t.node ∈ texts.map Token.string := h ▸ List.mem_map_of_mem ht
  obtain ⟨text, -, heq⟩ := List.mem_map.mp hmem
  exact ⟨text, heq.symm⟩

theorem balanced_of_stringRun {texts : List String} (h : StringRun ts texts) : Balanced ts := by
  refine balanced_of_level fun t ht => ?_
  obtain ⟨text, htext⟩ := h.isString ht
  exact htext ▸ ⟨by simp, rfl⟩

end

/-- The tokens of a phrase are balanced, if its separators open and close nothing. -/
theorem Derivation.balanced {b : Bool} {ph : Phrase} {r : ph.Result} {ts : List (Located Token)}
    {next : Option Token} (d : Derivation b ph r ts next) (h : ph.IsLevel) : Balanced ts := by
  have hquestion : IsLevel (.symbol .question) := ⟨by simp, rfl⟩
  induction d
  case operationsCons hop _ _ _ _ ih ih' =>
    exact ((ih trivial).append (ih' trivial)).cons (isLevel_of_connective? hop)
  case unaryOp hop _ ih => exact (ih trivial).cons (isLevel_of_unaryOp hop)
  case signedSegmentValue hop _ ih => exact (ih trivial).cons (isLevel_of_unaryOp hop)
  case recordField hname hequal _ ih =>
    exact ((ih trivial).cons (hequal ▸ ⟨by simp, rfl⟩)).cons (isLevel_of_name hname)
  case simple hsimple => exact balanced_of_level (by simpa using isLevel_of_simple? hsimple)
  case strings _ hrun _ => exact balanced_of_stringRun hrun
  case remoteReference hfun _ hmodule hcolon _ hslash _ ih ih' =>
    refine ((((ih trivial).append ((ih' trivial).cons ?_)).cons ?_).cons
      (isLevel_of_simple? hmodule)).cons ?_
    · exact hslash ▸ ⟨by simp, rfl⟩
    · exact hcolon ▸ ⟨by simp, rfl⟩
    · exact hfun ▸ ⟨by simp, rfl⟩
  case macroName hq hname _ =>
    exact balanced_of_level (by simpa using ⟨hq ▸ hquestion, isLevel_of_name hname⟩)
  case macroCall hq hname _ ih =>
    exact ((ih trivial).cons (isLevel_of_name hname)).cons (hq ▸ hquestion)
  -- In the other rules every token is known, but for the separators of lists.
  all_goals
    simp_all [balanced_iff, or_imp, forall_and, Phrase.IsLevel, IsLevel, bracketStep]

/-! ### Forms -/

theorem isLevel_of_attributeName? {k : Token} {name : String} (h : attributeName? k = some name) :
    IsLevel k := isLevel_of_some h (by decide)

theorem FunctionClause.balanced {name : Located String} {c : Located Clause}
    {ts : List (Located Token)} {next : Option Token} (d : FunctionClause name c ts next) :
    Balanced ts := by
  obtain ⟨hname, dps, dc⟩ := d
  exact ((dps.balanced trivial).append (dc.balanced trivial)).cons (isLevel_of_name (.inl hname))

theorem FurtherClauses.balanced {first : String × Nat} {cs : List (Located Clause)}
    {ts : List (Located Token)} (d : FurtherClauses first cs ts) : Balanced ts := by
  induction d with
  | nil => exact balanced_of_level (List.forall_mem_nil _)
  | cons hs dc _ _ ih => exact (dc.balanced.append ih).cons (hs ▸ ⟨by simp, rfl⟩)

/-- Only raw tokens can leave brackets open, or close too many. -/
def Form.isRaw : Form → Bool
  | .attribute _ (.tokens _) => true
  | _ => false

/-- The tokens of a form are balanced, apart from raw ones. -/
theorem FormDerivation.balanced {f : Located Form} {ts : List (Located Token)}
    (d : FormDerivation f ts) (h : Form.isRaw f.node = false) : Balanced ts := by
  cases d with
  | function dfirst dmore => exact dfirst.balanced.append dmore.balanced
  | tokens => cases h
  | plain hm hn =>
      exact balanced_of_level (by simpa using ⟨hm ▸ ⟨by simp, rfl⟩, isLevel_of_attributeName? hn⟩)
  | noArgs hm hn _ hl hr =>
      have hparens := (balanced_of_level (List.forall_mem_nil _)).parens hl hr
      exact (hparens.cons (isLevel_of_attributeName? hn)).cons (hm ▸ ⟨by simp, rfl⟩)
  | args hm hn _ hl d hr =>
      have hparens := (d.balanced ⟨⟨by simp, rfl⟩, trivial⟩).parens hl hr
      exact (hparens.cons (isLevel_of_attributeName? hn)).cons (hm ▸ ⟨by simp, rfl⟩)

/-! ### Cutting -/

/-- A part ends at the first terminator where the depth has come back. -/
theorem cutFrom_part {depth : Int32} {started ts rest : List (Located Token)} {t : Located Token}
    (hno : ∀ u ∈ ts, u.node ≠ .terminator) (ht : t.node = .terminator)
    (hdepth : depth + openBrackets ts ≤ 0) :
    cutFrom depth started (ts ++ t :: rest) =
      ((started.reverse ++ (ts ++ [t])) :: (cutFrom 0 [] rest).1, (cutFrom 0 [] rest).2) := by
  induction ts generalizing depth started with
  | nil =>
      have hzero : depth ≤ 0 := by simpa using hdepth
      simp [cutFrom, ht, hzero]
  | cons u ts ih =>
      obtain ⟨hu, hts⟩ := List.forall_mem_cons.mp hno
      rw [openBrackets_cons, ← Int32.add_assoc] at hdepth
      rw [List.cons_append, cutFrom, if_neg (by simp [hu]), ih hts hdepth]
      simp

/-- A part that ends where the cut is made. -/
def IsPart (ts : List (Located Token)) : Prop :=
  ∃ us t, ts = us ++ [t] ∧ t.node = .terminator ∧ (∀ u ∈ us, u.node ≠ .terminator) ∧
    openBrackets us ≤ 0

/-- Parts that each end where their depth has come back are cut apart again. -/
theorem cutForms_flatten_of_parts {parts : List (List (Located Token))}
    (h : ∀ p ∈ parts, IsPart p) :
    cutForms parts.flatten = .ok parts := by
  refine cutForms_eq_ok.mpr ?_
  induction parts with
  | nil => rfl
  | cons p parts ih =>
      obtain ⟨⟨us, t, rfl, ht, hno, hdepth⟩, hparts⟩ := List.forall_mem_cons.mp h
      rw [List.flatten_cons, List.append_assoc, List.singleton_append,
        cutFrom_part hno ht (by simpa using hdepth), ih hparts]
      simp

/-! ### Token sequences one after the other -/

section

variable {as bs : List (Located Token)} {parts : List (List (Located Token))}

/-- Where no part has begun, the cut goes on as at the start. -/
theorem cutFrom_append {depth : Int32} {started : List (Located Token)}
    (hstarted : started = [] → depth = 0) (h : cutFrom depth started as = (parts, [])) :
    cutFrom depth started (as ++ bs) = (parts ++ (cutFrom 0 [] bs).1, (cutFrom 0 [] bs).2) := by
  induction as generalizing depth started parts with
  | nil =>
      obtain ⟨rfl, hreverse⟩ := Prod.mk.inj h
      obtain rfl := List.reverse_eq_nil_iff.mp hreverse
      rw [hstarted rfl]
      rfl
  | cons t as ih =>
      rw [cutFrom] at h
      rw [List.cons_append, cutFrom]
      split
      · next hcut =>
        rw [if_pos hcut] at h
        obtain ⟨rfl, hrest⟩ := Prod.mk.inj h
        rw [ih (fun _ => rfl) (Prod.ext rfl hrest)]
        rfl
      · next hcut =>
        rw [if_neg hcut] at h
        exact ih (fun hnil => absurd hnil (List.cons_ne_nil t started)) h

theorem cutForms_append (h : cutForms as = .ok parts) :
    cutForms (as ++ bs) = (cutForms bs).map (parts ++ ·) := by
  rw [cutForms, cutFrom_append (fun _ => rfl) (cutForms_eq_ok.mp h), cutForms]
  obtain ⟨more, rest⟩ := cutFrom 0 [] bs
  rcases hrest : rest.getLast? with _ | last <;> simp [hrest, Except.map]

theorem parseForms_of_cutForms (h : cutForms as = .ok parts) :
    parseForms as = parts.mapM form.run := by
  rw [parseForms, h]
  rfl

/-- Behind complete forms the others are read, or refused, as if they stood alone. -/
theorem parseForms_append {fs : List (Located Form)} (h : parseForms as = .ok fs)
    (bs : List (Located Token)) : parseForms (as ++ bs) = (parseForms bs).map (fs ++ ·) := by
  obtain ⟨parts, hcut, -⟩ := parseForms_iff.mp h
  rw [parseForms_of_cutForms hcut] at h
  have happend : cutForms (as ++ bs) = (cutForms bs).map (parts ++ ·) := cutForms_append hcut
  rcases hmore : cutForms bs with e | more <;> rw [hmore] at happend
  · rw [parseForms, happend, parseForms, hmore]
    rfl
  · rw [parseForms_of_cutForms happend, parseForms_of_cutForms hmore, List.mapM_append, h]
    cases more.mapM form.run <;> rfl

/-- A form that closes one bracket too many, in front of one that leaves a bracket open. -/
theorem parseForms_append_unbalanced :
    ∃ fs e, parseForms [⟨.symbol .minus, ⟨0, 1, 1⟩⟩, ⟨.atom "type", ⟨1, 5, 1⟩⟩,
        ⟨.symbol .rightParen, ⟨6, 7, 1⟩⟩, ⟨.terminator, ⟨7, 8, 1⟩⟩] = .ok fs ∧
      parseForms [⟨.symbol .minus, ⟨9, 10, 2⟩⟩, ⟨.atom "type", ⟨10, 14, 2⟩⟩,
        ⟨.symbol .leftParen, ⟨15, 16, 2⟩⟩, ⟨.terminator, ⟨16, 17, 2⟩⟩] = .error e ∧
      parseForms [⟨.symbol .minus, ⟨0, 1, 1⟩⟩, ⟨.atom "type", ⟨1, 5, 1⟩⟩,
        ⟨.symbol .rightParen, ⟨6, 7, 1⟩⟩, ⟨.terminator, ⟨7, 8, 1⟩⟩,
        ⟨.symbol .minus, ⟨9, 10, 2⟩⟩, ⟨.atom "type", ⟨10, 14, 2⟩⟩,
        ⟨.symbol .leftParen, ⟨15, 16, 2⟩⟩, ⟨.terminator, ⟨16, 17, 2⟩⟩] = .error e := by
  have hclosed : parseForms [⟨.symbol .minus, ⟨0, 1, 1⟩⟩, ⟨.atom "type", ⟨1, 5, 1⟩⟩,
      ⟨.symbol .rightParen, ⟨6, 7, 1⟩⟩, ⟨.terminator, ⟨7, 8, 1⟩⟩] =
        .ok [⟨.attribute ⟨"type", ⟨1, 5, 1⟩⟩ (.tokens [.symbol .rightParen]), ⟨0, 7, 1⟩⟩] := by
    cbv
  have hopen : parseForms [⟨.symbol .minus, ⟨9, 10, 2⟩⟩, ⟨.atom "type", ⟨10, 14, 2⟩⟩,
      ⟨.symbol .leftParen, ⟨15, 16, 2⟩⟩, ⟨.terminator, ⟨16, 17, 2⟩⟩] =
        .error ⟨.declaration, .missingTerminator, ⟨17, 17, 2⟩⟩ := by
    cbv
  refine ⟨_, _, hclosed, hopen, ?_⟩
  have happend :=
    parseForms_append hclosed [⟨.symbol .minus, ⟨9, 10, 2⟩⟩, ⟨.atom "type", ⟨10, 14, 2⟩⟩,
    ⟨.symbol .leftParen, ⟨15, 16, 2⟩⟩, ⟨.terminator, ⟨16, 17, 2⟩⟩]
  rw [hopen] at happend
  exact happend

end

end ErlangFragment.Grammar
