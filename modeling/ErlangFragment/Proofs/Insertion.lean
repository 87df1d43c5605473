import ErlangFragment.Proofs.Layout
import ErlangFragment.Proofs.Source
import ErlangFragment.Proofs.Token.Scan

/-! Layout in front of tokens. Blanks and comments that are put there change the spans of a text and
nothing else. -/

namespace ErlangFragment

open Lexeme Lexer

/-- The text with insertions. What `inserted` gives for the offset of a character stands in front of
it, and what it gives for the offset behind the last one stands at the end. -/
def insertFrom (inserted : Nat → List Char) (offset : Nat) : List Char → List Char
  | [] => inserted offset
  | c :: cs => inserted offset ++ c :: insertFrom inserted (offset + c.utf8Size) cs

/-- The text ends at the offset, or a token starts there that does not follow a dot at once. -/
def MayInsert (size : Nat) (tokens : List (Located Token)) (offset : Nat) : Prop :=
  offset = size ∨
    (∃ t ∈ tokens, t.span.start = offset) ∧ ∀ t ∈ tokens, t.node = .symbol .dot →
    t.span.stop ≠ offset

/-! ### Reading comments and fillers -/

namespace Lexer

variable {cs rest body : List Char} {ts : List Token}

theorem Reads.comment (h : Reads rest ts) (hbody : '\n' ∉ body) (hrest : Avoids (· ≠ '\n') rest) :
    Reads ('%' :: (body ++ rest)) ts := by
  intro offset line
  rw [scan_token (by decide) (next?_comment hbody hrest), List.drop_left, List.take_left]
  obtain ⟨toks, endLine, hscan, hnodes⟩ :=
    h (spanOf offset line '%' (body ++ rest) body.length).stop
      (advanceLine line (newlines ('%' :: body)))
  exact ⟨toks, endLine, by rw [hscan]; simp [Except.map], hnodes⟩

/-- A filler in front changes nothing of what is read. -/
theorem Reads.filler (h : Reads rest ts) (hcs : Filler cs) : Reads (cs ++ rest) ts := by
  induction hcs with
  | nil => exact h
  | blank hc _ ih => exact ih.layout hc
  | @comment body cs hbody _ ih =>
      have hline : Reads ('\n' :: (cs ++ rest)) ts := ih.layout (by decide)
      simpa using hline.comment hbody (by simp)

theorem reads_filler (hcs : Filler cs) : Reads cs [] := by
  simpa using reads_nil.filler hcs

/-- A comment at the end of a text takes the first line of a filler along. -/
theorem reads_comment_filler (hbody : '\n' ∉ body) (hcs : Filler cs) :
    Reads ('%' :: (body ++ cs)) [] := by
  induction hcs generalizing body with
  | nil => exact reads_nil.comment hbody (avoids_nil _)
  | @blank c cs hc h ih =>
      by_cases hline : c = '\n'
      · subst hline
        exact (reads_filler (.blank hc h)).comment hbody (by simp)
      · have hmore : '\n' ∉ body ++ [c] := by simp [hbody, Ne.symm hline]
        simpa using ih hmore
  | @comment body' cs hbody' h _ =>
      have hrest : Reads ('\n' :: cs) [] := reads_filler (.blank (by decide) h)
      have hmore : '\n' ∉ body ++ '%' :: body' := by simp [hbody, hbody']
      simpa using hrest.comment hmore (by simp)

end Lexer

section

variable {offset line endLine : Nat} {cs rest : List Char} {ts : List (Located Token)}

theorem Lexer.Scans.le_start (h : Scans offset cs ts) : ∀ t ∈ ts, offset ≤ t.span.start := by
  induction h with
  | nil => exact List.forall_mem_nil _
  | blank _ _ ih | comment _ _ _ ih =>
    exact fun t ht => Nat.le_trans (Nat.le_add_right _ _) (ih t ht)
  | token _ _ _ hstart hstop _ ih =>
      refine List.forall_mem_cons.mpr ⟨Nat.le_of_eq hstart.symm, fun t ht => ?_⟩
      have hle := ih t ht
      omega

theorem Lexer.Scans.lt_start {c : Char} (h : Scans offset (c :: cs) ts) (hc : isLayout c = true) :
    ∀ t ∈ ts, offset < t.span.start := by
  generalize hcs : c :: cs = text at h
  cases h with
  | nil => cases hcs
  | @blank _ d _ _ _ h =>
      intro t ht
      have hpos := d.utf8Size_pos
      have hle := h.le_start t ht
      omega
  | comment _ _ _ =>
      obtain ⟨rfl, -⟩ := List.cons.inj hcs
      cases hc
  | token hd _ _ _ _ _ =>
      obtain ⟨rfl, -⟩ := List.cons.inj hcs
      rw [hc] at hd
      cases hd

end

/-! ### Reading a text with insertions -/

section

variable {inserted : Nat → List Char} {offset : Nat} {cs rest : List Char}

/-- Where nothing is inserted the text stays. -/
theorem insertFrom_append (h : ∀ i, offset ≤ i → i < offset + byteLength cs → inserted i = []) :
    insertFrom inserted offset (cs ++ rest) =
      cs ++ insertFrom inserted (offset + byteLength cs) rest := by
  induction cs generalizing offset with
  | nil => rfl
  | cons c cs ih =>
      have hpos := c.utf8Size_pos
      have hhere := h offset (Nat.le_refl _) (by rw [byteLength]; omega)
      have htail :=
        @ih (offset + c.utf8Size) fun i hi hlt => h i (by omega) (by rw [byteLength]; omega)
      rw [List.cons_append, insertFrom, hhere, htail, byteLength, Nat.add_assoc]
      rfl

theorem breaksOff_insertFrom (hfill : ∀ i, Filler (inserted i)) (offset : Nat) (cs : List Char) :
    BreaksOff 0 cs (insertFrom inserted offset cs) := by
  induction cs generalizing offset with
  | nil =>
      rcases (hfill offset).startsGap_head with hnil | ⟨c, ds, hcons, hc⟩
      · rw [insertFrom, hnil]
        exact .nil
      · rw [insertFrom, hcons]
        exact .gap hc
  | cons c cs ih =>
      rcases (hfill offset).startsGap_head with hnil | ⟨d, ds, hcons, hd⟩
      · rw [insertFrom, hnil]
        exact .cons (ih _)
      · rw [insertFrom, hcons]
        exact .gap hd

theorem endsForm_of_breaksOff {ds : List Char} (h : BreaksOff 0 cs ds) (hcs : endsForm cs = true) :
    endsForm ds = true := by
  rcases h.inv with ⟨-, rfl⟩ | ⟨-, c, es, rfl, hc⟩ | ⟨c, cs, es, rfl, rfl, -⟩
  · rfl
  · rcases Bool.or_eq_true_iff.mp hc with hlayout | hpercent
    · simp [endsForm, isWhiteSpace_of_isLayout hlayout]
    · simp_all [endsForm]
  · exact hcs

/-- Every insertion stands in front of a token that may be moved, or at the end. -/
def Admissible (inserted : Nat → List Char) (low size : Nat)
    (tokens : List (Located Token)) : Prop :=
  ∀ i, low ≤ i → inserted i ≠ [] → MayInsert size tokens i

namespace Admissible

variable {low low' size i : Nat} {ts : List (Located Token)}

theorem mono (h : Admissible inserted low size ts) (hlow : low ≤ low') :
    Admissible inserted low' size ts :=
  fun i hi => h i (Nat.le_trans hlow hi)

theorem tail {t : Located Token} (h : Admissible inserted low size (t :: ts)) (hlow : low ≤ low')
    (ht : t.span.start < low') : Admissible inserted low' size ts := by
  intro i hi hne
  rcases h i (Nat.le_trans hlow hi) hne with hend | ⟨⟨u, hu, hstart⟩, hdot⟩
  · exact .inl hend
  · rcases List.mem_cons.mp hu with rfl | hu
    · omega
    · exact .inr ⟨⟨u, hu, hstart⟩, fun v hv => hdot v (List.mem_cons_of_mem t hv)⟩

/-- Nothing stands in front of a character that starts no token. -/
theorem eq_nil (h : Admissible inserted low size ts) (hlow : low ≤ i) (hsize : i < size)
    (hstart : ∀ t ∈ ts, t.span.start ≠ i) : inserted i = [] := by
  refine Decidable.byContradiction fun hne => ?_
  rcases h i hlow hne with hend | ⟨⟨t, ht, heq⟩, -⟩
  · omega
  · exact hstart t ht heq

end Admissible

/-- Whether a dot ends a form is not changed by what stands behind it. -/
theorem settle_insertFrom {t : Token} {s : Span} {size : Nat} {ts : List (Located Token)}
    (hfill : ∀ i, Filler (inserted i))
    (hplace : Admissible inserted s.stop size (⟨settle t rest, s⟩ :: ts))
    (hsize : rest ≠ [] → s.stop < size) :
    settle t (insertFrom inserted s.stop rest) = settle t rest := by
  by_cases hdot : t = .symbol .dot
  · subst hdot
    rcases hends : endsForm rest with _ | _
    · rcases rest with _ | ⟨d, rest⟩
      · cases hends
      · have hnil : inserted s.stop = [] := by
          refine Decidable.byContradiction fun hne => ?_
          rcases hplace s.stop (Nat.le_refl _) hne with hend | ⟨-, hafter⟩
          · have := hsize (List.cons_ne_nil _ _)
            omega
          · exact hafter _ List.mem_cons_self (by simp [settle, hends]) rfl
        rw [insertFrom, hnil]
        rfl
    · simp [settle, hends, endsForm_of_breaksOff (breaksOff_insertFrom hfill s.stop rest) hends]
  · simp [settle, hdot]

theorem Lexer.Scans.reads_insertFrom {ts : List (Located Token)} (h : Scans offset cs ts)
    (hfill : ∀ i, Filler (inserted i))
    (hplace : Admissible inserted offset (offset + byteLength cs) ts) :
    Reads (insertFrom inserted offset cs) (ts.map Located.node) := by
  induction h with
  | @nil offset => exact reads_filler (hfill offset)
  | @blank offset c cs ts hc h ih =>
      have hpos := byteLength_pos (List.cons_ne_nil c cs)
      have hnil := hplace.eq_nil (Nat.le_refl _) (by omega) fun t ht =>
        Nat.ne_of_gt ((Scans.blank hc h).lt_start hc t ht)
      rw [byteLength, ← Nat.add_assoc] at hplace
      rw [insertFrom, hnil]
      exact (ih (hplace.mono (Nat.le_add_right _ _))).layout hc
  | @comment offset body rest ts hbody hrest h ih =>
      have hsize : offset + byteLength ('%' :: (body ++ rest)) =
          offset + byteLength ('%' :: body) + byteLength rest := by
        rw [← List.cons_append, byteLength_append, Nat.add_assoc]
      rw [hsize] at hplace
      have hinner : insertFrom inserted offset ('%' :: body ++ rest) =
          '%' :: body ++ insertFrom inserted (offset + byteLength ('%' :: body)) rest :=
        insertFrom_append fun i hi hlt => hplace.eq_nil hi (by omega) fun t ht => by
          have hle := h.le_start t ht
          omega
      have htail := hplace.mono (Nat.le_add_right offset (byteLength ('%' :: body)))
      rw [← List.cons_append, hinner]
      rcases rest with _ | ⟨c, rest⟩
      · cases h
        exact reads_comment_filler hbody (hfill _)
      · obtain rfl : c = '\n' := by simpa using hrest
        have hpos := byteLength_pos (List.cons_ne_nil '\n' rest)
        have hnil := htail.eq_nil (Nat.le_refl _) (by omega) fun t ht =>
          Nat.ne_of_gt (h.lt_start (by decide) t ht)
        refine (ih htail).comment hbody ?_
        simp [insertFrom, hnil]
  | @token offset c cs rest ts t s hc ht hcomment hstart hstop h ih =>
      have hpos := c.utf8Size_pos
      have hsize : offset + byteLength (c :: (cs ++ rest)) = s.stop + byteLength rest := by
        rw [← List.cons_append, byteLength_append, hstop, Nat.add_assoc]
      have hlt : offset < s.stop := by
        rw [hstop, byteLength]
        omega
      rw [hsize] at hplace
      have htail := hplace.tail (Nat.le_of_lt hlt) (by simpa [hstart] using hlt)
      have hinner : insertFrom inserted (offset + c.utf8Size) (cs ++ rest) =
          cs ++ insertFrom inserted s.stop rest := by
        rw [byteLength, ← Nat.add_assoc] at hstop
        rw [hstop]
        refine insertFrom_append fun i hi hi' => ?_
        refine hplace.eq_nil (by omega) (by omega)
          (List.forall_mem_cons.mpr ⟨by simp only; omega, ?_⟩)
        intro u hu
        have hle := h.le_start u hu
        omega
      have hnext := next?_breaksOff ((breaksOff_insertFrom hfill s.stop rest).append cs) ht hcomment
      have hsettle := settle_insertFrom hfill (hplace.mono (Nat.le_of_lt hlt)) fun hne => by
        have hrest := byteLength_pos hne
        omega
      rw [insertFrom, hinner, List.map_cons, ← hsettle]
      exact ((ih htail).lexeme hc hnext hcomment).filler (hfill offset)

end

/-! ### Reading the source with insertions -/

/-- The text with the insertions in it. -/
def insert (inserted : Nat → List Char) (source : String) : String :=
  String.ofList (insertFrom inserted 0 source.toList)

/-- The insertions are blanks and comments, and all of them are where they may be. -/
structure Inserts (inserted : Nat → List Char) (source : String) (tokens : List (Located Token)) :
    Prop where
  filler : ∀ i, Filler (inserted i)
  place : ∀ i, inserted i ≠ [] → MayInsert (byteLength source.toList) tokens i

section

variable {source : String} {line endLine : Nat} {ts : List (Located Token)}

/-- The tokens are the same before and after the insertion. -/
theorem tokenize_insert {inserted : Nat → List Char} (h : tokenize source line = .ok (ts, endLine))
    (hi : Inserts inserted source ts) :
    ∃ us endLine', tokenize (insert inserted source) line = .ok (us, endLine') ∧
      us.map Located.node = ts.map Located.node := by
  have hplace : Admissible inserted 0 (0 + byteLength source.toList) ts := by
    rw [Nat.zero_add]
    exact fun i _ => hi.place i
  have hreads := (scan_scans h).reads_insertFrom hi.filler hplace 0 line
  rwa [tokenize, insert, String.toList_ofList]

/-- Blanks and comments in front of tokens change no token, and neither what a text is read as nor
why it cannot be read. -/
theorem insert_reads_alike {inserted : Nat → List Char}
    (h : tokenize source line = .ok (ts, endLine)) (hi : Inserts inserted source ts) :
    (∃ us endLine', tokenize (insert inserted source) line = .ok (us, endLine') ∧
        us.map Located.node = ts.map Located.node) ∧
      SameReading eraseSpans (parseDeclarationsAt source line)
        (parseDeclarationsAt (insert inserted source) line) ∧
      SameReading eraseExprSpans (parseSnippetAt source line)
        (parseSnippetAt (insert inserted source) line) := by
  obtain ⟨us, endLine', hu, hnodes⟩ := tokenize_insert h hi
  exact ⟨⟨us, endLine', hu, hnodes⟩, parseDeclarationsAt_same h hu hnodes.symm,
    parseSnippetAt_same h hu hnodes.symm⟩

/-- A comment before the closing parenthesis. -/
theorem insert_reads_alike_comment :
    insert (fun i => if i = 2 then ['%', ' ', 'c', '\n'] else []) "f()->1." = "f(% c\n)->1." ∧
      SameReading eraseSpans (parseDeclarationsAt "f()->1." 1)
        (parseDeclarationsAt "f(% c\n)->1." 1) := by
  have htext : insert (fun i => if i = 2 then ['%', ' ', 'c', '\n'] else []) "f()->1." =
      "f(% c\n)->1." := by
    decide +kernel
  refine ⟨htext, ?_⟩
  have htokens : tokenize "f()->1." 1 =
      .ok ([⟨.atom "f", ⟨0, 1, 1⟩⟩, ⟨.symbol .leftParen, ⟨1, 2, 1⟩⟩,
      ⟨.symbol .rightParen, ⟨2, 3, 1⟩⟩, ⟨.symbol .arrow, ⟨3, 5, 1⟩⟩,
      ⟨.integer (.small 1), ⟨5, 6, 1⟩⟩, ⟨.terminator, ⟨6, 7, 1⟩⟩], 1) := by
    decide +kernel
  have halike :=
    @insert_reads_alike "f()->1." 1 1 _ (fun i => if i = 2 then ['%', ' ', 'c', '\n'] else [])
    htokens ⟨?_, ?_⟩
  · rw [htext] at halike
    exact halike.2.1
  · intro i
    by_cases hi : i = 2
    · simpa [hi] using Filler.comment (by decide : '\n' ∉ [' ', 'c']) .nil
    · simpa [hi] using Filler.nil
  · intro i hne
    obtain rfl : i = 2 := by simpa using hne
    exact .inr ⟨⟨⟨.symbol .rightParen, ⟨2, 3, 1⟩⟩, by simp, rfl⟩, by simp⟩

end

end ErlangFragment
