import ErlangFragment.Proofs.Printer.Modules

/-! Reading the raw tokens of an attribute back. They are the tokens of their text exactly if they
keep apart and their floats are finite. -/

namespace ErlangFragment

open Grammar Layout Lexeme Lexer

/-! ### What a token is read from -/

section

variable {offset n : Nat} {c d : Char} {cs ds rest : List Char} {t : Token} {first : Located Token}
  {toks : List (Located Token)} {x : Binary64} {l : IntegerLiteral}

theorem Lexer.Scans.blank_inv (h : Scans offset (c :: cs) toks) (hc : isLayout c = true) :
    ∃ start, Scans start cs toks := by
  generalize htext : c :: cs = text at h
  cases h with
  | nil => cases htext
  | blank _ h =>
      obtain ⟨-, rfl⟩ := List.cons.inj htext
      exact ⟨_, h⟩
  | comment =>
      obtain ⟨rfl, -⟩ := List.cons.inj htext
      cases hc
  | token hlayout =>
      obtain ⟨rfl, -⟩ := List.cons.inj htext
      rw [hc] at hlayout
      cases hlayout

/-- The first of the tokens is the one that the text starts with. -/
theorem Lexer.Scans.token_inv (h : Scans offset (c :: cs) (first :: toks)) (hc : isLayout c = false)
    (hcomment : c ≠ '%') :
    ∃ t lexeme rest stop, cs = lexeme ++ rest ∧ next? c cs = some (t, lexeme.length) ∧
      first.node = settle t rest ∧ Scans stop rest toks := by
  generalize htext : c :: cs = text at h
  cases h with
  | blank hlayout _ =>
      obtain ⟨rfl, -⟩ := List.cons.inj htext
      rw [hc] at hlayout
      cases hlayout
  | comment =>
      obtain ⟨rfl, -⟩ := List.cons.inj htext
      exact absurd rfl hcomment
  | token _ hnext _ _ _ hrest =>
      obtain ⟨rfl, rfl⟩ := List.cons.inj htext
      exact ⟨_, _, _, _, rfl, hnext, rfl, hrest⟩

/-- A token that stands before the text behind it is read, and then that text. -/
theorem Token.StandsBefore.scans (h : t.StandsBefore rest)
    (hs : Scans offset (t.text.toList ++ rest) (first :: toks)) :
    first.node = t ∧ ∃ stop, Scans stop rest toks := by
  obtain ⟨c, cs, u, htext, hlayout, hnext, hcomment, hsettle⟩ := h
  have hc : c ≠ '%' := by
    rintro rfl
    exact hcomment (congrArg Prod.fst (Option.some.inj (hnext.symm.trans rfl)))
  rw [htext, List.cons_append] at hs
  obtain ⟨v, lexeme, rest', stop, htail, hv, hfirst, hrest⟩ := hs.token_inv hlayout hc
  obtain ⟨rfl, hlength⟩ := Prod.mk.inj (Option.some.inj (hnext.symm.trans hv))
  obtain ⟨rfl, rfl⟩ := List.append_inj htail hlength
  exact ⟨hfirst.trans hsettle, stop, hrest⟩

/-- Only digits begin numbers. -/
theorem isDigit_of_next? (h : next? c cs = some (t, n)) (ht : t.isNumber = true) :
    c.isDigit = true := by
  obtain ⟨kind, hl, htoken⟩ := next?_eq_some h
  have hkind : kind = .decimal ∨ kind = .based ∨ kind = .float := by
    cases t with
    | integer l => exact (kind_of_token? htoken).imp_right .inl
    | float x => exact .inr (.inr (kind_of_token? htoken))
    | _ => cases ht
  cases longest?_heads hl with
  | number hc _ => exact hc
  | _ => simp at hkind

/-- Digits, a point and another digit are read as a float. -/
theorem number_point {ws : List Char} (hws : ∀ c ∈ ws, c.isDigit = true) (hd : d.isDigit = true) :
    (number (ws ++ '.' :: d :: ds)).1 = .float := by
  have hbase : (ws ++ '.' :: d :: ds).takeWhile Char.isDigit = ws :=
    takeWhile_append_of_avoids hws (by simp [Char.isDigit])
  have hwhole : Radix.digitsLength Char.isDigit (ws ++ '.' :: d :: ds) = ws.length :=
    Radix.digitsLength_append hws (.of_avoids (by simp [Char.isDigit]) (by simp))
  simp [number, hbase, hwhole, hd]

/-- What is read as a number starts with a digit. -/
theorem Lexer.Scans.isDigit (hs : Scans offset (c :: cs) (first :: toks)) (hc : isLayout c = false)
    (hcomment : c ≠ '%') (hnumber : first.node.isNumber = true) : c.isDigit = true := by
  obtain ⟨t, lexeme, rest, stop, -, hnext, hfirst, -⟩ := hs.token_inv hc hcomment
  rw [hfirst] at hnumber
  have ht : settle t rest = t := settle_eq fun hterminator => by
    rw [hterminator] at hnumber
    cases hnumber
  exact isDigit_of_next? hnext (ht ▸ hnumber)

/-- What reads as a number is finite. -/
theorem isFinite_of_scans (hx : (Token.float x).Lexed)
    (hs : Scans offset ((Token.float x).text.toList ++ rest) (first :: toks))
    (hfirst : first.node = .float x) :
    x.isFinite = true := by
  by_contra hfinite
  have hnumber : first.node.isNumber = true := hfirst ▸ rfl
  have htext : x.text = "NaN" ∨ x.text = "inf" := by
    have hexp : x.exponent = 2047 := by simpa [Binary64.isFinite] using hfinite
    rw [Binary64.text]
    by_cases hnan : x.isNaN = true
    · exact .inl (if_pos hnan)
    · have hinf : x.isInfinite = true := by
        simp [Binary64.isNaN, hexp] at hnan
        simp [Binary64.isInfinite, hexp, hnan]
      rw [if_neg hnan, if_pos hinf, hx.float]
      exact .inr rfl
  rw [Token.text] at hs
  rcases htext with htext | htext
  · rw [htext] at hs
    exact absurd (hs.isDigit rfl (by decide) hnumber) (by decide)
  · rw [htext] at hs
    exact absurd (hs.isDigit rfl (by decide) hnumber) (by decide)

/-- A token that is read in front of a dot does not take the dot along. -/
theorem precedes_of_scans (ht : t.Lexed) (hdot : t ≠ .symbol .dot)
    (hs : Scans offset (t.text.toList ++ '.' :: cs) (first :: toks)) (hfirst : first.node = t) :
    t.Precedes ('.' :: cs) := by
  refine precedes_point hdot ?_ ?_
  · rintro rfl
    have hlone : Symbol.dotDotDot.Lone := ⟨by decide, fun c => rfl⟩
    have hread : first.node = .symbol .dotDotDot := ((hlone.standsBefore cs).scans hs).1
    rw [hfirst] at hread
    cases hread
  · rintro l rfl hl d hd
    refine Bool.eq_false_iff.mpr fun hdigit => ?_
    obtain ⟨ds, rfl⟩ := List.head?_eq_some_iff.mp hd
    obtain ⟨digits, htext, hne, hdigits, -⟩ := ht.integer.hasDigits hl
    obtain ⟨c, ws, rfl⟩ := List.exists_cons_of_ne_nil hne
    obtain ⟨hc, hws⟩ := List.forall_mem_cons.mp hdigits
    rw [Token.text, htext, String.toList_ofList] at hs
    obtain ⟨u, lexeme, rest, stop, -, hnext, hsettle, -⟩ :=
      hs.token_inv (isLayout_eq_false hc (by decide)) (by rintro rfl; cases hc)
    obtain ⟨kind, hlongest, htoken⟩ := next?_eq_some hnext
    have hkind : kind = .float := by
      have hpoint : (number (ws ++ '.' :: d :: ds)).1 = .float := number_point hws hdigit
      simp [longest?, isLower_eq_false_of_isDigit hc, isVariableStart_eq_false_of_isDigit hc,
        hc] at hlongest
      rw [hlongest] at hpoint
      exact hpoint
    subst hkind
    obtain ⟨y, -, rfl⟩ := Option.map_eq_some_iff.mp htoken
    rw [hfirst, settle_eq (t := .float y) (by simp [settle])] at hsettle
    cases hsettle

/-- A text that a number is read from starts with a digit. -/
theorem head_isDigit (ht : t.Lexed) (hnumber : t.isNumber = true)
    (hfloat : ∀ x, t = .float x → x.ReadsBack) :
    ∃ d ds, t.text.toList = d :: ds ∧ d.isDigit = true := by
  have hnil : t.Precedes [] := ⟨avoids_nil _, fun _ _ _ => endsDecimal_nil, fun _ _ => avoids_nil _⟩
  have hstands :=
    ht.standsBefore hfloat (by rintro rfl; cases hnumber) (by rintro rfl; cases hnumber) hnil
  obtain ⟨c, cs, u, htext, -, hnext, -, hsettle⟩ := hstands
  have hu : settle u [] = u := settle_eq fun hterminator => by
    rw [← hsettle, hterminator] at hnumber
    cases hnumber
  exact ⟨c, cs, htext, isDigit_of_next? hnext (by rwa [← hu, hsettle])⟩

/-- A token that is told apart from a dot does not take it along. -/
theorem joinsDot_eq_false {behind : Option Token} (h : t.Precedes ('.' :: cs))
    (hbehind : ∀ v ∈ behind, v.isNumber = true → ∃ d ds, cs = d :: ds ∧ d.isDigit = true) :
    t.joinsDot behind = false := by
  refine Bool.eq_false_iff.mpr fun hjoins => ?_
  unfold Token.joinsDot at hjoins
  split at hjoins
  · exact absurd ((avoids_cons _ _ _).mp (h.mark .dotDot rfl)) (by decide)
  · next l =>
    obtain ⟨hl, hany⟩ := Bool.and_eq_true_iff.mp hjoins
    obtain ⟨v, hv, hnumber⟩ := (Option.any_eq_true _ _).mp hany
    obtain ⟨d, ds, rfl, hd⟩ := hbehind v hv hnumber
    rw [(h.number l rfl hl).fraction d ds rfl] at hd
    cases hd
  · cases hjoins

end

/-! ### Raw tokens -/

namespace Printer

variable {afterDot : Bool} {t : Token} {ts : List Token} {rest : List Char} {offset : Nat}
  {toks : List (Located Token)}

/-- The text of the first raw token, and behind it the others. -/
theorem scans_rawForm_cons (hs : Scans offset ((rawForm afterDot (t :: ts)).chars ++ rest) toks) :
    ∃ start, Scans start (t.text.toList ++ ((rawForm (decide (t = .symbol .dot)) ts).chars ++ rest))
      toks := by
  by_cases hdot : t = .symbol .dot
  · subst hdot
    rw [rawForm_dot, chars_cons, List.append_assoc] at hs
    exact ⟨offset, hs⟩
  · rw [decide_eq_false hdot]
    cases afterDot with
    | true =>
        rw [rawForm_afterDot hdot, chars_cons, List.append_assoc] at hs
        exact ⟨offset, hs⟩
    | false =>
        rw [rawForm_blank hdot] at hs
        obtain ⟨start, hs⟩ : ∃ start,
            Scans start (chars (.token t :: rawForm false ts) ++ rest) toks :=
          hs.blank_inv rfl
        rw [chars_cons, List.append_assoc] at hs
        exact ⟨start, hs⟩

/-- A raw token that is read back goes before what is laid out behind it. -/
theorem precedes_rawForm_of_scans {first : Located Token} (ht : t.Lexed) (hdot : t ≠ .symbol .dot)
    (hs : Scans offset (t.text.toList ++ ((rawForm false ts).chars ++ rest)) (first :: toks))
    (hfirst : first.node = t) : t.Precedes ((rawForm false ts).chars ++ rest) := by
  cases ts with
  | nil => exact precedes_of_scans ht hdot hs hfirst
  | cons u us =>
      by_cases hu : u = .symbol .dot
      · subst hu
        rw [rawForm_dot] at hs ⊢
        exact precedes_of_scans ht hdot hs hfirst
      · rw [rawForm_blank hu]
        exact precedes_blank t _

/-- What goes before a dot does not take it along, whatever is laid out behind the dot. -/
theorem joinsDot_of_precedes (hlexed : ∀ u ∈ ts, u.Lexed)
    (hfloat : ∀ x, .float x ∈ ts → Binary64.ReadsBack x)
    (hprecedes : t.Precedes ((rawForm false ts).chars ++ rest))
    (hhead : ∀ u ∈ ts.head?, u = .symbol .dot) :
    t.joinsDot ts.tail.head? = false := by
  cases ts with
  | nil => exact joinsDot_eq_false hprecedes (by simp)
  | cons u us =>
      obtain rfl : u = .symbol .dot := hhead u rfl
      rw [rawForm_dot] at hprecedes
      refine joinsDot_eq_false hprecedes fun v hv hnumber => ?_
      obtain ⟨vs, rfl⟩ := List.head?_eq_some_iff.mp hv
      have hne : v ≠ .symbol .dot := by
        rintro rfl
        cases hnumber
      obtain ⟨d, ds, htext, hd⟩ :=
        head_isDigit (hlexed v (by simp)) hnumber fun x hx => hfloat x (by simp [hx])
      rw [rawForm_afterDot hne]
      exact ⟨d, _, by simp [Piece.text, htext]; rfl, hd⟩

/-- Tokens that are read back from their layout keep apart, and their floats are finite. -/
theorem keepApart_of_scans (hlexed : ∀ t ∈ ts, t.Lexed ∧ t ≠ .terminator)
    (hread : ∀ x, .float x ∈ ts → x.isFinite = true → Binary64.read? x.text.toList = some x)
    (hs : Scans offset ((rawForm afterDot ts).chars ++ rest) toks)
    (hnodes : toks.map Located.node = ts ++ [.terminator]) :
    KeepApart ts ∧ ∀ x, .float x ∈ ts → x.isFinite = true := by
  induction ts generalizing afterDot offset toks with
  | nil => exact ⟨True.intro, by simp⟩
  | cons t ts ih =>
      obtain ⟨⟨ht, hend⟩, hts⟩ := List.forall_mem_cons.mp hlexed
      have hreads : ∀ x, .float x ∈ ts → x.isFinite = true →
          Binary64.read? x.text.toList = some x :=
        fun x hx => hread x (List.mem_cons_of_mem t hx)
      obtain ⟨first, us, rfl, hfirst, hus⟩ := List.map_eq_cons_iff.mp hnodes
      obtain ⟨start, hs⟩ := scans_rawForm_cons hs
      by_cases hdot : t = .symbol .dot
      · subst hdot
        obtain ⟨u, lexeme, behind, stop, htail, hnext, hsettle, hbehind⟩ :=
          hs.token_inv rfl (by decide)
        obtain rfl : u = .symbol .dot := by
          rw [hfirst] at hsettle
          rw [hsettle, settle_eq (by rw [← hsettle]; simp)]
        obtain rfl : lexeme = [] := List.length_eq_zero_iff.mp (next?_dot hnext)
        rw [List.nil_append] at htail
        rw [← htail] at hbehind
        obtain ⟨hapart, hfinite⟩ := ih hts hreads hbehind hus
        refine ⟨⟨fun _ => rfl, hapart⟩, fun x hx => hfinite x ?_⟩
        exact (List.mem_cons.mp hx).resolve_left (by simp)
      · rw [decide_eq_false hdot] at hs
        have hfinite : ∀ x, t = .float x → x.isFinite = true := by
          rintro x rfl
          exact isFinite_of_scans ht hs hfirst
        have hprecedes := precedes_rawForm_of_scans ht hdot hs hfirst
        have hstands : t.StandsBefore ((rawForm false ts).chars ++ rest) := by
          refine ht.standsBefore (fun x hx => ⟨hfinite x hx, ?_⟩) hend hdot hprecedes
          exact hread x (by simp [hx]) (hfinite x hx)
        obtain ⟨-, stop, hbehind⟩ := hstands.scans hs
        obtain ⟨hapart, hfinites⟩ := ih hts hreads hbehind hus
        have hjoins := joinsDot_of_precedes (fun u hu => (hts u hu).1)
          (fun x hx => ⟨hfinites x hx, hreads x hx (hfinites x hx)⟩) hprecedes
        refine ⟨⟨hjoins, hapart⟩, fun x hx => ?_⟩
        rcases List.mem_cons.mp hx with rfl | hx
        · exact hfinite x rfl
        · exact hfinites x hx

theorem toList_rawTokens (ts : List Token) :
    ((rawTokens false ts).text ++ ".\n").toList = (rawForm false ts).chars ++ ['\n'] := by
  rw [String.toList_append, toList_text, rawForm, chars_append, List.append_assoc]
  rfl

end Printer

section

open Printer

variable {source : String} {fs : List (Located Form)} {name : Located String} {ts : List Token}
  {span : Span}

/-- The text of raw tokens, with a dot and a line feed behind it, has these tokens and a terminator
exactly if no token takes along a dot that is laid out behind it and no float is too large. -/
theorem tokenize_rawTokens_iff (h : parseDeclarations source = .ok fs)
    (hmem : ⟨.attribute name (.tokens ts), span⟩ ∈ fs)
    (hread : ∀ x, .float x ∈ ts → x.isFinite = true → Binary64.read? x.text.toList = some x)
    (line : Nat) :
    (∃ toks endLine, tokenize ((rawTokens false ts).text ++ ".\n") line = .ok (toks, endLine) ∧
        toks.map Located.node = ts ++ [.terminator]) ↔
      KeepApart ts ∧ ∀ x, .float x ∈ ts → x.isFinite = true := by
  obtain ⟨located, endLine, ht, hparse⟩ := parseForms_of_parseDeclarationsAt h
  have hlexed : ∀ t ∈ ts, t.Lexed ∧ t ≠ .terminator :=
    parseForms_shaped Token.Lexed.underscore hparse (scan_scans ht).lexed _ hmem
  obtain ⟨-, hdots, -⟩ := cutForms_of_source ht hparse _ hmem
  rw [tokenize, toList_rawTokens]
  constructor
  · rintro ⟨toks, endLine, hscan, hnodes⟩
    exact keepApart_of_scans hlexed hread (scan_scans hscan) hnodes
  · rintro ⟨hapart, hfinite⟩
    have hspaced : Spaced (rawForm false ts) ['\n'] :=
      spaced_rawForm hlexed (fun x hx => ⟨hfinite x hx, hread x hx (hfinite x hx)⟩) hdots hapart rfl
    have hreads := hspaced.reads (reads_nil.layout rfl) 0 line
    have htokens : (rawForm false ts).tokens = ts ++ [.terminator] := by
      rw [rawForm, tokens_append, tokens_rawTokens]
      rfl
    rwa [htokens, List.append_nil] at hreads

/-- The tokens of a record with a float as the default of its field and a type from another
module. -/
def recordTokens (x : Binary64) : List Token :=
  [.symbol .leftParen, .atom "r", .symbol .comma, .symbol .leftBrace, .atom "x", .symbol .equal,
    .float x, .symbol .colonColon, .atom "m", .symbol .dot, .atom "t",
    .symbol .leftParen, .symbol .rightParen, .symbol .rightBrace, .symbol .rightParen]

theorem tokenize_rawTokens_record :
    ∃ fs toks endLine, parseDeclarations "-record(r, {x = 1.5 :: m.t()}).\n" = .ok fs ∧
      ⟨.attribute ⟨"record", ⟨1, 7, 1⟩⟩ (.tokens (recordTokens (.ofRatio false 3 2))),
        ⟨0, 30, 1⟩⟩ ∈ fs ∧
      tokenize " ( r , { x = 1.5 :: m.t ( ) } ).\n" 1 = .ok (toks, endLine) ∧
      toks.map Located.node = recordTokens (.ofRatio false 3 2) ++ [.terminator] := by
  have htokens : tokenize "-record(r, {x = 1.5 :: m.t()}).\n" 1 = .ok ([⟨.symbol .minus, ⟨0, 1, 1⟩⟩,
      ⟨.atom "record", ⟨1, 7, 1⟩⟩, ⟨.symbol .leftParen, ⟨7, 8, 1⟩⟩, ⟨.atom "r", ⟨8, 9, 1⟩⟩,
      ⟨.symbol .comma, ⟨9, 10, 1⟩⟩, ⟨.symbol .leftBrace, ⟨11, 12, 1⟩⟩, ⟨.atom "x", ⟨12, 13, 1⟩⟩,
      ⟨.symbol .equal, ⟨14, 15, 1⟩⟩, ⟨.float (.ofRatio false 3 2), ⟨16, 19, 1⟩⟩,
      ⟨.symbol .colonColon, ⟨20, 22, 1⟩⟩, ⟨.atom "m", ⟨23, 24, 1⟩⟩, ⟨.symbol .dot, ⟨24, 25, 1⟩⟩,
      ⟨.atom "t", ⟨25, 26, 1⟩⟩, ⟨.symbol .leftParen, ⟨26, 27, 1⟩⟩,
      ⟨.symbol .rightParen, ⟨27, 28, 1⟩⟩, ⟨.symbol .rightBrace, ⟨28, 29, 1⟩⟩,
      ⟨.symbol .rightParen, ⟨29, 30, 1⟩⟩, ⟨.terminator, ⟨30, 31, 1⟩⟩], 2) := by
    decide +kernel
  have hparse : parseDeclarations "-record(r, {x = 1.5 :: m.t()}).\n" =
      .ok [⟨.attribute ⟨"record", ⟨1, 7, 1⟩⟩ (.tokens (recordTokens (.ofRatio false 3 2))),
        ⟨0, 30, 1⟩⟩] := by
    refine (parseDeclarationsAt_eq htokens).trans ?_
    generalize Binary64.ofRatio false 3 2 = x
    cbv
  have hapart : KeepApart (recordTokens (.ofRatio false 3 2)) := by
    simp [recordTokens, KeepApart, Token.joinsDot]
  have hread : Binary64.read? (Binary64.ofRatio false 3 2).text.toList =
      some (.ofRatio false 3 2) := by
    decide +kernel
  have hfinite : (Binary64.ofRatio false 3 2).isFinite = true := by decide +kernel
  have hfloat (x : Binary64) (hx : .float x ∈ recordTokens (.ofRatio false 3 2)) :
      x = .ofRatio false 3 2 := by
    simpa [recordTokens] using hx
  obtain ⟨toks, endLine, hrun, hnodes⟩ :=
    (tokenize_rawTokens_iff hparse (List.mem_singleton_self _)
      (fun x hx _ => hfloat x hx ▸ hread) 1).mpr ⟨hapart, fun x hx => hfloat x hx ▸ hfinite⟩
  refine ⟨_, toks, endLine, hparse, List.mem_singleton_self _, ?_, hnodes⟩
  rw [← hrun]
  congr 1

/-- Two dots and the one that ends the form are read as three. -/
theorem tokenize_rawTokens_dots :
    parseDeclarations "-type a .. .\n" =
        .ok [⟨.attribute ⟨"type", ⟨1, 5, 1⟩⟩ (.tokens [.atom "a", .symbol .dotDot]), ⟨0, 10, 1⟩⟩] ∧
      ¬ ∃ toks endLine, tokenize ((rawTokens false [.atom "a", .symbol .dotDot]).text ++ ".\n") 1 =
        .ok (toks, endLine) ∧ toks.map Located.node =
          [.atom "a", .symbol .dotDot, .terminator] := by
  have htokens : tokenize "-type a .. .\n" 1 = .ok ([⟨.symbol .minus, ⟨0, 1, 1⟩⟩,
      ⟨.atom "type", ⟨1, 5, 1⟩⟩, ⟨.atom "a", ⟨6, 7, 1⟩⟩, ⟨.symbol .dotDot, ⟨8, 10, 1⟩⟩,
      ⟨.terminator, ⟨11, 12, 1⟩⟩], 2) := by
    decide +kernel
  have hprinted : tokenize ((rawTokens false [.atom "a", .symbol .dotDot]).text ++ ".\n") 1 =
      .ok ([⟨.atom "a", ⟨1, 2, 1⟩⟩, ⟨.symbol .dotDotDot, ⟨3, 6, 1⟩⟩], 2) := by
    decide +kernel
  refine ⟨(parseDeclarationsAt_eq htokens).trans (by cbv), ?_⟩
  rintro ⟨toks, endLine, hread, hnodes⟩
  rw [hprinted] at hread
  cases hread
  cases hnodes

end

end ErlangFragment
