import ErlangFragment.Proofs.Token.Character
import ErlangFragment.Proofs.Token.Scan

/-! Escapes of one character. Character literals and strings share the reading of an escape, but
each of them has its own rules for where the literal ends, and these differ for a hidden line feed
and for the control characters that are not named by a letter. -/

namespace ErlangFragment

open Radix

namespace Quoted

/-- The text is an escape, from its backslash to its end, and stands for the character. -/
inductive Escape : List Char → Char → Prop
  | letter {l c} : letterEscape? l = some c → Escape ['\\', l] c
  | octal {d ds c} : isDigit 8 d = true → (∀ e ∈ ds, isDigit 8 e = true) → ds.length ≤ 2 →
      scalar? (value 8 (d :: ds)) = some c → Escape ('\\' :: d :: ds) c
  | hexPair {h l c} : isDigit 16 h = true → isDigit 16 l = true →
      scalar? (value 16 [h, l]) = some c →
      Escape ['\\', 'x', h, l] c
  | hexBraces {ds c} : ds ≠ [] → (∀ d ∈ ds, isDigit 16 d = true) → scalar? (value 16 ds) = some c →
      Escape ('\\' :: 'x' :: '{' :: (ds ++ ['}'])) c
  | control (d : Char) : Escape ['\\', '^', d] (Char.ofNat (d.toNat % 32))
  | other {c} : letterEscape? c = none → isDigit 8 c = false → c ≠ 'x' → c ≠ '^' →
      Escape ['\\', c] c

variable {c d e : Char} {ds t : List Char} {n : Nat}

theorem letterEscape?_eq_none_of_isDigit (h : isDigit 8 d = true) : letterEscape? d = none := by
  unfold letterEscape?
  split <;> first | rfl | exact absurd h (by decide)

theorem ne_of_letterEscape? (h : letterEscape? d = some c) (he : letterEscape? e = none) :
    d ≠ e := by
  rintro rfl
  rw [h] at he
  cases he

/-! ### Reading an escape -/

theorem escape_of_octalEscape? (hd : isDigit 8 d = true) (h : octalEscape? d ds = some (c, n)) :
    n ≤ ds.length ∧ Escape ('\\' :: d :: ds.take n) c := by
  simp only [octalEscape?, Option.map_eq_some_iff, Prod.mk.injEq] at h
  obtain ⟨_, hscalar, rfl, hn⟩ := h
  have hprefix : (ds.take 2).takeWhile (isDigit 8) <+: ds :=
    (List.takeWhile_prefix _).trans (List.take_prefix 2 ds)
  have htake : ds.take n = (ds.take 2).takeWhile (isDigit 8) := by
    rw [← hn]
    exact (List.prefix_iff_eq_take.mp hprefix).symm
  rw [htake]
  have hlength : ((ds.take 2).takeWhile (isDigit 8)).length ≤ 2 :=
    Nat.le_trans (List.takeWhile_prefix _).length_le (List.length_take_le 2 ds)
  have hdigits := List.all_eq_true.mp (@List.all_takeWhile _ (isDigit 8) (ds.take 2))
  exact ⟨hn ▸ hprefix.length_le, .octal hd hdigits hlength hscalar⟩

theorem escape_of_hexEscape? (h : hexEscape? ds = some (c, n)) :
    n ≤ ds.length ∧ Escape ('\\' :: 'x' :: ds.take n) c := by
  unfold hexEscape? at h
  split at h
  · next cs =>
    obtain ⟨run, rest, rfl, hrun, hrest⟩ := exists_run (· ≠ '}') cs
    rw [takeWhile_append_of_avoids hrun hrest] at h
    simp only at h
    split at h
    · next hdigits =>
      simp only [Bool.and_eq_true, decide_eq_true_eq, List.length_append,
        List.all_eq_true] at hdigits
      obtain ⟨⟨hlt, hne⟩, hall⟩ := hdigits
      simp only [Option.map_eq_some_iff, Prod.mk.injEq] at h
      obtain ⟨_, hscalar, rfl, rfl⟩ := h
      obtain ⟨rest, rfl⟩ : ∃ more, rest = '}' :: more := by
        cases rest with
        | nil => simp at hlt
        | cons b more => exact ⟨more, by simpa using hrest⟩
      have htake : ('{' :: (run ++ '}' :: rest)).take (run.length + 2) = '{' :: (run ++ ['}']) := by
        rw [List.take_succ_cons, List.append_cons, List.take_left' (by simp)]
      rw [htake]
      exact ⟨by simp, .hexBraces hne hall hscalar⟩
    · cases h
  · split at h
    · next hdigits =>
      rw [Bool.and_eq_true] at hdigits
      simp only [Option.map_eq_some_iff, Prod.mk.injEq] at h
      obtain ⟨_, hscalar, rfl, rfl⟩ := h
      exact ⟨by simp, .hexPair hdigits.1 hdigits.2 hscalar⟩
    · cases h
  · cases h

/-- What is read as an escape is one, by its first character. -/
theorem escape_of_escape? (h : escape? d ds = some (c, n)) :
    n ≤ ds.length ∧ Escape ('\\' :: d :: ds.take n) c := by
  unfold escape? at h
  split at h
  · next hletter =>
    obtain ⟨rfl, rfl⟩ : _ = c ∧ 0 = n := by simpa using h
    exact ⟨Nat.zero_le _, .letter hletter⟩
  next hletter =>
  split at h
  · next hd => exact escape_of_octalEscape? hd h
  next hd =>
  split at h
  · next hx => exact hx ▸ escape_of_hexEscape? h
  next hx =>
  split at h
  · next hcaret =>
    split at h
    · next e _ =>
      obtain ⟨rfl, rfl⟩ : _ = c ∧ 1 = n := by simpa using h
      exact ⟨by simp, hcaret ▸ .control e⟩
    · cases h
  · next hcaret =>
    obtain ⟨rfl, rfl⟩ : d = c ∧ 0 = n := by simpa using h
    exact ⟨Nat.zero_le _, .other hletter (by simpa using hd) hx hcaret⟩

/-- An escape is read through its last character. -/
theorem Escape.escape? (h : Escape ('\\' :: d :: ds) c) : escape? d ds = some (c, ds.length) := by
  cases h with
  | letter hletter => simp [Quoted.escape?, hletter]
  | octal hd hds hlength hscalar =>
      have hrun : (ds.take 2).takeWhile (isDigit 8) = ds := by
        rw [List.take_of_length_le hlength]
        simpa using takeWhile_append_of_avoids hds (avoids_nil _)
      simp [Quoted.escape?, letterEscape?_eq_none_of_isDigit hd, hd, octalEscape?, hrun, hscalar]
  | @hexPair h l _ hh hl hscalar =>
      have hbrace : h ≠ '{' := by
        rintro rfl
        cases hh
      have hx : hexEscape? [h, l] = some (c, 2) := by simp [hexEscape?, hh, hl, hscalar]
      exact hx
  | @hexBraces ds _ hne hds hscalar =>
      have hrun : (ds ++ ['}']).takeWhile (· ≠ '}') = ds :=
        takeWhile_append_of_avoids (fun e he => by simpa using ne_rightBrace_of_isDigit (hds e he))
          (by simp)
      have hx : hexEscape? ('{' :: (ds ++ ['}'])) = some (c, ds.length + 2) := by
        simp only [hexEscape?, hrun]
        simpa [hne, hscalar] using hds
      simpa [Quoted.escape?, letterEscape?, show isDigit 8 'x' = false from rfl] using hx
  | control d => rfl
  | other hletter hd hx hcaret => exact escape?_other hletter hd hx hcaret []

theorem Escape.feed_inv (h : Escape ('\\' :: '\n' :: ds) c) : ds = [] ∧ c = '\n' := by
  cases h with
  | letter hletter => cases hletter
  | octal hd => cases hd
  | other => exact ⟨rfl, rfl⟩

theorem Escape.control_inv (h : Escape ['\\', '^', d] c) : c = Char.ofNat (d.toNat % 32) := by
  cases h with
  | octal hd => cases hd
  | control => rfl

theorem decode?_eq_nil (h : decode? t = some []) : t = [] := by
  rcases t with _ | ⟨c, cs⟩
  · rfl
  rw [decode?.eq_def] at h
  simp only at h
  split at h
  · split at h
    · cases h
    · split at h <;> simp at h
  · simp at h

/-- A backslash and what is behind it decode to one character exactly as one escape. -/
theorem decode?_eq_singleton : decode? ('\\' :: t) = some [c] ↔ Escape ('\\' :: t) c := by
  constructor
  · intro h
    rcases t with _ | ⟨d, ds⟩
    · rw [decode?.eq_def] at h
      simp at h
    rcases hescape : Quoted.escape? d ds with _ | ⟨e, n⟩
    · rw [decode?.eq_def] at h
      simp [hescape] at h
    rw [decode?_escape hescape] at h
    obtain ⟨cs, hrest, hcons⟩ := Option.map_eq_some_iff.mp h
    obtain ⟨rfl, rfl⟩ : e = c ∧ cs = [] := by simpa using hcons
    obtain ⟨hn, hform⟩ := escape_of_escape? hescape
    rwa [List.take_of_length_le (List.drop_eq_nil_iff.mp (decode?_eq_nil hrest))] at hform
  · intro h
    rcases t with _ | ⟨d, ds⟩
    · cases h
    rw [decode?_escape h.escape?, List.drop_length, decode?]
    rfl

end Quoted

namespace Lexeme

open Quoted

variable {c : Char} {t : List Char} {n : Nat}

/-! ### Escapes in the two literals -/

/-- A character literal takes every escape, but of the control escapes only those of a name. -/
theorem characterForm_escape (h : Escape t c) :
    CharacterForm t t.length ↔ ∀ d, t = ['\\', '^', d] → isControlName d = true := by
  constructor
  · rintro hform d rfl
    have hlength := characterLength?_eq_some.mpr hform
    simpa [characterLength?, isControlName, show isDigit 8 '^' = false from rfl,
      or_iff_not_imp_left]
      using hlength
  · intro hcontrol
    cases h with
    | @letter l _ hletter =>
        refine @CharacterForm.other l [] (Bool.eq_false_iff.mpr fun hd => ?_)
          (ne_of_letterEscape? hletter rfl) (ne_of_letterEscape? hletter rfl)
        rw [letterEscape?_eq_none_of_isDigit hd] at hletter
        cases hletter
    | @octal d ds _ hd hds hlength _ =>
        have hform := @CharacterForm.octal d ds [] hd hds hlength fun _ => avoids_nil _
        rwa [List.append_nil] at hform
    | hexPair hh hl _ => exact .hexPair hh hl
    | @hexBraces ds _ hne hds _ =>
        have hform := @CharacterForm.hexBraces ds [] hne hds
        rwa [show ds.length + 4 = ('\\' :: 'x' :: '{' :: (ds ++ ['}'])).length by simp] at hform
    | control d => exact .control (hcontrol d rfl)
    | other _ hd hx hcaret => exact .other hd hx hcaret

/-- What stands in an escape behind the character that the backslash hides. -/
theorem plain_of_escape {d e : Char} {ds : List Char} (h : Escape ('\\' :: d :: ds) c)
    (hcontrol : d = '^' → ds ≠ ['"'] ∧ ds ≠ ['\\']) (he : e ∈ ds) : e ≠ '\\' ∧ e ≠ '"' := by
  have hdigit {base : Nat} (hd : isDigit base e = true) : e ≠ '\\' ∧ e ≠ '"' := by
    constructor <;> rintro rfl <;> cases hd
  cases h with
  | letter | other => cases he
  | octal _ hds => exact hdigit (hds e he)
  | hexPair hh hl =>
      rcases List.mem_pair.mp he with rfl | rfl
      · exact hdigit hh
      · exact hdigit hl
  | hexBraces _ hds =>
      simp only [List.mem_cons, List.mem_append, List.not_mem_nil, or_false] at he
      rcases he with rfl | he | rfl
      · decide
      · exact hdigit (hds e he)
      · decide
  | control =>
      obtain rfl := List.mem_singleton.mp he
      simpa [and_comm] using hcontrol rfl

/-- A string takes every escape but a hidden line feed, and two control escapes: a quote that the
caret does not hide ends the string, and a backslash hides the quote behind it. -/
theorem quotedLength?_escape_iff (h : Escape ('\\' :: t) c) :
    quotedLength? '"' ('\\' :: t ++ ['"']) = some (('\\' :: t).length + 1) ↔
      t ≠ ['\n'] ∧ ∀ d, t = ['^', d] → d ≠ '"' ∧ d ≠ '\\' := by
  constructor
  · intro hlength
    refine ⟨?_, ?_⟩
    · rintro rfl
      cases hlength
    · rintro d rfl
      constructor <;> rintro rfl <;> cases hlength
  · rintro ⟨hfeed, hcontrol⟩
    rcases t with _ | ⟨d, ds⟩
    · cases h
    have hd : d ≠ '\n' := by
      rintro rfl
      exact hfeed (by rw [h.feed_inv.1])
    have hplain : ∀ e ∈ ds, e ≠ '\\' ∧ e ≠ '"' := fun e he => plain_of_escape h (by
      rintro rfl
      constructor <;> rintro rfl <;> simpa using hcontrol _ rfl) he
    rw [List.cons_append, List.cons_append, quotedLength?_escape hd,
      quotedLength?_plain_append hplain, show quotedLength? '"' ['"'] = some 1 from rfl]
    simp only [Option.map_some, List.length_cons, Option.some.injEq]
    omega

end Lexeme

open Lexeme Lexer Quoted

variable {c : Char} {cs u : List Char} {t : Token} {n : Nat}

/-! ### The two literals -/

/-- Where the first character leaves one kind of lexeme, its length decides. -/
theorem next?_of_kind {kind : LexemeKind} {a : Char} {length : Option Nat}
    (h : longest? a cs = length.map (kind, ·)) :
    Lexeme.next? a cs = some (t, n) ↔ length = some n ∧ token? kind (a :: cs.take n) = some t := by
  rw [next?, h]
  rcases length with _ | m
  · simp
  simp only [Option.map_some, Option.map_eq_some_iff, Prod.mk.injEq, Option.some.injEq]
  constructor
  · rintro ⟨u, hu, rfl, rfl⟩
    exact ⟨rfl, hu⟩
  · rintro ⟨rfl, hu⟩
    exact ⟨t, hu, rfl, rfl⟩

theorem token?_character : token? .character ('$' :: cs) = some (.char c) ↔
    decode? cs = some [c] := by
  simp only [token?, characterToken?, List.drop_one, List.tail_cons]
  split
  · next d hd => simp [hd]
  · next hnone => simpa using hnone c

theorem token?_string {text : List Char} :
    token? .string ('"' :: cs) = some (.string (String.ofList text)) ↔
      decode? cs.dropLast = some text := by
  simp [token?, body, String.ofList_inj]

theorem spells_character_iff :
    Spells ('$' :: '\\' :: u) (.char c) ↔
      Escape ('\\' :: u) c ∧ ∀ d, u = ['^', d] → isControlName d = true := by
  have hnext := @next?_of_kind ('\\' :: u) (.char c) ('\\' :: u).length .character '$' _ rfl
  rw [List.take_length, token?_character, decode?_eq_singleton, characterLength?_eq_some] at hnext
  rw [spells_iff_next? rfl (by decide) (by simp) (by simp), hnext, and_comm]
  exact and_congr_right fun h => by simpa using characterForm_escape h

theorem spells_string_iff :
    Spells ('"' :: '\\' :: (u ++ ['"'])) (.string (String.ofList [c])) ↔
      Escape ('\\' :: u) c ∧ u ≠ ['\n'] ∧ ∀ d, u = ['^', d] → d ≠ '"' ∧ d ≠ '\\' := by
  have hnext := @next?_of_kind ('\\' :: u ++ ['"']) (.string (String.ofList [c]))
    ('\\' :: u ++ ['"']).length .string '"' _ rfl
  rw [List.take_length, token?_string, List.dropLast_concat, decode?_eq_singleton] at hnext
  rw [← List.cons_append, spells_iff_next? rfl (by decide) (by simp) (by simp), hnext, and_comm]
  exact and_congr_right fun h => by simpa using quotedLength?_escape_iff h

/-- An escape that only one of the two literals takes, with the character it stands for. -/
inductive OneSided : List Char → Char → Prop
  /-- A hidden line feed, which a character literal takes. -/
  | feed : OneSided ['\\', '\n'] '\n'
  /-- A control character without a name, which a string takes. -/
  | control {d : Char} : isControlName d = false → d ≠ '"' → d ≠ '\\' →
      OneSided ['\\', '^', d] (Char.ofNat (d.toNat % 32))

/-- Character literals and strings understand the same escapes, but for those that are one-sided. -/
theorem character_iff_string (u : List Char) (c : Char) :
    (Spells ('$' :: '\\' :: u) (.char c) ↔
        Spells ('"' :: '\\' :: (u ++ ['"'])) (.string (String.ofList [c]))) ↔
      ¬OneSided ('\\' :: u) c := by
  rw [spells_character_iff, spells_string_iff, and_congr_right_iff]
  constructor
  · rintro h (_ | ⟨hname, hq, hb⟩)
    · have hfeed := (h (.other rfl rfl (by decide) (by decide))).mp nofun
      exact hfeed.1 rfl
    · have hread := (h (.control _)).mpr ⟨nofun, fun d hd => by simp_all⟩
      rw [hread _ rfl] at hname
      cases hname
  · intro h hescape
    constructor
    · intro hname
      refine ⟨?_, ?_⟩
      · rintro rfl
        obtain ⟨-, rfl⟩ := hescape.feed_inv
        exact h .feed
      · rintro d rfl
        have hd := hname d rfl
        constructor <;> rintro rfl <;> cases hd
    · rintro ⟨-, hplain⟩ d rfl
      obtain ⟨hq, hb⟩ := hplain d rfl
      obtain rfl := hescape.control_inv
      by_contra hname
      exact h (.control (Bool.eq_false_iff.mpr hname) hq hb)

/-- The escape character itself is a control character without a name: `$\^[` is refused, but
`"\^["` is read. -/
theorem string_not_character_escape :
    ¬(Spells ['$', '\\', '^', '['] (.char '\x1b') ↔
      Spells ['"', '\\', '^', '[', '"'] (.string (String.ofList ['\x1b']))) := by
  intro h
  have hstring : Spells ['"', '\\', '^', '[', '"'] (.string (String.ofList ['\x1b'])) := by
    unfold Spells
    decide +kernel
  have hcharacter : lex (String.ofList ['$', '\\', '^', '[']) =
      .error ⟨.malformedCharacter, ⟨0, 2, 1⟩⟩ := by decide +kernel
  rw [Spells, hcharacter] at h
  cases h.mpr hstring

end ErlangFragment
