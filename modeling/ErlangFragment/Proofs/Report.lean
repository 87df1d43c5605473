import ErlangFragment.Command.Headline
import ErlangFragment.Proofs.Diagnostic

/-! Where reports point. What is drawn gets the offset of the error in bytes, and the headline takes
it for a number of characters, so that it is right where every character before the error is one
byte and nowhere else. -/

namespace ErlangFragment.Report

/-- Line and column, both from one, of what stands behind these characters. -/
def placeBehind (before : List Char) : Nat × Nat :=
  (1 + newlines before, 1 + (before.reverse.takeWhile (· ≠ '\n')).length)

/-- What is assumed of the library that draws: the offset of this drawing is taken for the number of
the characters before a place, where lines end in line feeds, and the headline is that place, or
none if it is past the end. -/
structure CountsCharacters (headline : Headline) (source : List Char) (drawing : Drawing) :
    Prop where
  within : drawing.offset ≤ source.length →
    headline source drawing = some (placeBehind (source.take drawing.offset))
  past : source.length < drawing.offset → headline source drawing = none

section

variable {text before after : List Char}

/-! ### Places -/

/-- The place moves on with every character, to the right or to a later line. -/
theorem placeBehind_append_ne (before : List Char) (hmore : after ≠ []) :
    placeBehind (before ++ after) ≠ placeBehind before := by
  intro h
  obtain ⟨hlines, hcolumns⟩ := Prod.mk.inj h
  rw [newlines_append] at hlines
  have hnone : newlines after = 0 := by omega
  have hfeed : ∀ c ∈ after.reverse, decide (c ≠ '\n') = true := by
    intro c hc
    have hne : c ≠ '\n' := by
      rintro rfl
      exact List.count_eq_zero.mp hnone (List.mem_reverse.mp hc)
    exact decide_eq_true hne
  rw [List.reverse_append, List.takeWhile_append_of_pos hfeed, List.length_append,
    List.length_reverse] at hcolumns
  have := List.length_pos_iff.mpr hmore
  omega

/-- A place behind the first characters of a text tells how many they are. -/
theorem placeBehind_take_eq_iff {k : Nat} (hk : before.length ≤ k)
    (hlength : k ≤ (before ++ after).length) :
    placeBehind ((before ++ after).take k) = placeBehind before ↔ k = before.length := by
  rw [List.take_append, List.take_of_length_le hk]
  constructor
  · intro h
    by_contra hne
    refine placeBehind_append_ne before (fun hnil => ?_) h
    have hempty := congrArg List.length hnil
    rw [List.length_take, List.length_nil] at hempty
    rw [List.length_append] at hlength
    omega
  · rintro rfl
    rw [Nat.sub_self, List.take_zero, List.append_nil]

/-! ### Bytes taken for characters -/

theorem length_le_byteLength (text : List Char) : text.length ≤ byteLength text := by
  induction text with
  | nil => exact Nat.le_refl _
  | cons c text ih =>
      have := c.utf8Size_pos
      rw [byteLength, List.length_cons]
      omega

theorem byteLength_eq_length_iff : byteLength text = text.length ↔ ∀ c ∈ text, c.utf8Size = 1 := by
  induction text with
  | nil => simp [byteLength]
  | cons c text ih =>
      have := c.utf8Size_pos
      have := length_le_byteLength text
      rw [byteLength, List.length_cons, List.forall_mem_cons, ← ih]
      omega

/-- The headline is the place of the error exactly if there are as many bytes before it as
characters. -/
theorem CountsCharacters.eq_place_iff {headline : Headline} {drawing : Drawing}
    (h : CountsCharacters headline (before ++ after) drawing)
    (hoffset : drawing.offset = byteLength before) :
    headline (before ++ after) drawing = some (placeBehind before) ↔
    ∀ c ∈ before, c.utf8Size = 1 := by
  rw [← byteLength_eq_length_iff, ← hoffset]
  have hle : before.length ≤ drawing.offset := hoffset ▸ length_le_byteLength before
  rcases Nat.lt_or_ge (before ++ after).length drawing.offset with hpast | hwithin
  · rw [h.past hpast]
    rw [List.length_append] at hpast
    exact ⟨nofun, fun heq => by omega⟩
  · rw [h.within hwithin, Option.some.injEq]
    exact placeBehind_take_eq_iff hle hwithin

end

/-- The report of an error is headed with its line and column exactly if every character before the
error is one byte. -/
theorem points_at_error_iff (source : String) {line : Nat} (hline : line ≤ lastLine)
    {d : Diagnostic} (h : d.RaisedBy source line) {s : Span} (hspan : d.span? = some s)
    {drawing : Drawing}
    (hdrawing : d.drawing? = some drawing) {headline : Headline}
    (hcounts : CountsCharacters headline source.toList drawing) {before after : List Char}
    (htext : source.toList = before ++ after) (hstart : s.start = byteLength before) :
    render headline source d = .located drawing (some (placeBehind before)) ↔
      ∀ c ∈ before, c.utf8Size = 1 := by
  obtain ⟨s', hs', hfits⟩ := h.fits hline
  obtain rfl := Option.some.inj (hspan.symm.trans hs')
  obtain ⟨drawing', hd', hoffset, -, -, hreport⟩ := render_of_fits hspan hfits
  obtain rfl := Option.some.inj (hdrawing.symm.trans hd')
  rw [hreport, Report.located.injEq, htext]
  rw [htext] at hcounts
  exact (and_iff_right rfl).trans (hcounts.eq_place_iff (hoffset.trans hstart))

/-- A bracket on the second line that closes nothing. -/
theorem points_at_error_bracket :
    1 ≤ lastLine ∧
      (Diagnostic.grammar "begin block" "expected expression, found ')'" ⟨5, 6, 2⟩).RaisedBy
        "[X,\n )" 1 ∧
      CountsCharacters Headline.ofCharacters "[X,\n )".toList
        ⟨"parse error", 5, 5, 6, "expected expression, found ')'"⟩ ∧
      (render Headline.ofCharacters "[X,\n )"
          (.grammar "begin block" "expected expression, found ')'" ⟨5, 6, 2⟩) =
        .located ⟨"parse error", 5, 5, 6, "expected expression, found ')'"⟩
          (some (placeBehind "[X,\n ".toList)) ↔
        ∀ c ∈ "[X,\n ".toList, c.utf8Size = 1) := by
  have ht : tokenize "[X,\n )" 1 = .ok ([⟨.symbol .leftBracket, ⟨0, 1, 1⟩⟩, ⟨.var "X", ⟨1, 2, 1⟩⟩,
      ⟨.symbol .comma, ⟨2, 3, 1⟩⟩, ⟨.symbol .rightParen, ⟨5, 6, 2⟩⟩], 2) := by
    decide +kernel
  have hraised : (Diagnostic.grammar "begin block" "expected expression, found ')'"
      ⟨5, 6, 2⟩).RaisedBy
      "[X,\n )" 1 := by
    refine .snippet
      (e := .grammar ⟨.beginBlock, .expected .expression (some (.symbol .rightParen)),
        ⟨5, 6, 2⟩⟩) ?_
    rw [parseSnippetAt_of_byteLength 6 ht (by decide +kernel)]
    cbv
  have hcounts : CountsCharacters Headline.ofCharacters "[X,\n )".toList
      ⟨"parse error", 5, 5, 6, "expected expression, found ')'"⟩ := ⟨by decide, by decide⟩
  have htext : "[X,\n )".toList = "[X,\n ".toList ++ [')'] := by decide
  exact ⟨by decide, hraised, hcounts,
    points_at_error_iff _ (by decide) hraised rfl rfl hcounts htext (by decide)⟩

/-- The string before the bracket has one more byte than it has characters, and so the report points
behind the bracket. -/
theorem points_behind_error :
    ∃ d span drawing, (d : Diagnostic).RaisedBy "\"é\" ]" 1 ∧ d.span? = some span ∧
      d.drawing? = some drawing ∧ span.start = byteLength "\"é\" ".toList ∧
      placeBehind "\"é\" ".toList = (1, 5) ∧
      CountsCharacters Headline.ofCharacters "\"é\" ]".toList drawing ∧
      ∀ headline, CountsCharacters headline "\"é\" ]".toList drawing →
        render headline "\"é\" ]" d = .located drawing (some (1, 6)) ∧
          render headline "\"é\" ]" d ≠ .located drawing (some (placeBehind "\"é\" ".toList)) := by
  have ht : tokenize "\"é\" ]" 1 =
      .ok ([⟨.string "é", ⟨0, 4, 1⟩⟩, ⟨.symbol .rightBracket, ⟨5, 6, 1⟩⟩], 1) := by
    decide +kernel
  have hraised : (Diagnostic.grammar "expression sequence" "expected 'end', found ']'"
      ⟨5, 6, 1⟩).RaisedBy
      "\"é\" ]" 1 := by
    refine .snippet (e := .grammar ⟨.expressionSequence, .expected (.token (.keyword .end_))
      (some (.symbol .rightBracket)), ⟨5, 6, 1⟩⟩) ?_
    rw [parseSnippetAt_of_byteLength 6 ht (by decide +kernel)]
    cbv
  refine ⟨_, ⟨5, 6, 1⟩, ⟨"parse error", 5, 5, 6, "expected 'end', found ']'"⟩, hraised, rfl, rfl,
    by decide, by decide, ⟨by decide, by decide⟩, fun headline hcounts => ?_⟩
  have hplace : headline "\"é\" ]".toList ⟨"parse error", 5, 5, 6, "expected 'end', found ']'"⟩ =
      some (1, 6) := (hcounts.within (by decide)).trans (by decide)
  have hreport : render headline "\"é\" ]"
      (.grammar "expression sequence" "expected 'end', found ']'"
      ⟨5, 6, 1⟩) = .located ⟨"parse error", 5, 5, 6, "expected 'end', found ']'"⟩
        (some (1, 6)) := by
    rw [← hplace]
    exact render_eq_located rfl (by decide) headline
  refine ⟨hreport, fun h => ?_⟩
  have hsame := (Report.located.inj (hreport.symm.trans h)).2
  exact absurd hsame (by decide)

end ErlangFragment.Report
