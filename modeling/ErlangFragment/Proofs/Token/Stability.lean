import ErlangFragment.Proofs.Token.Character
import ErlangFragment.Proofs.Token.Denotation
import ErlangFragment.Proofs.Token.Lexeme

/-! What stands behind a lexeme. The longest lexeme stays what it is if somewhere behind it the text
breaks off with layout or a comment or ends, since no lexeme looks further ahead than that. -/

namespace ErlangFragment

open Lexeme Radix

/-- Layout starts with the character, or a comment does. -/
def startsGap (c : Char) : Bool := isLayout c || c = '%'

/-- The second text is like the first one for `n` characters and more, up to a place where it ends
or where layout or a comment begins instead, or it is like the first one throughout. -/
inductive BreaksOff : Nat → List Char → List Char → Prop
  | nil {n} : BreaksOff n [] []
  | stop {cs} : BreaksOff 0 cs []
  | gap {c cs ds} : startsGap c = true → BreaksOff 0 cs (c :: ds)
  | cons {n c cs ds} : BreaksOff (n - 1) cs ds → BreaksOff n (c :: cs) (c :: ds)

namespace BreaksOff

variable {n k : Nat} {c : Char} {cs ds : List Char}

theorem mono (h : BreaksOff n cs ds) (hk : k ≤ n) : BreaksOff k cs ds := by
  induction h generalizing k with
  | nil => exact .nil
  | stop =>
      obtain rfl := Nat.le_zero.mp hk
      exact .stop
  | gap hc =>
      obtain rfl := Nat.le_zero.mp hk
      exact .gap hc
  | cons _ ih => exact .cons (ih (by omega))

theorem append (h : BreaksOff 0 cs ds) (ps : List Char) :
    BreaksOff ps.length (ps ++ cs) (ps ++ ds) := by
  induction ps with
  | nil => exact h
  | cons p ps ih => exact .cons ih

theorem drop (h : BreaksOff n cs ds) (hk : k ≤ n) : BreaksOff (n - k) (cs.drop k) (ds.drop k) := by
  induction k generalizing n cs ds with
  | zero => exact h
  | succ k ih =>
      cases h with
      | nil => exact .nil
      | stop | gap hc => omega
      | cons h =>
          rw [List.drop_succ_cons, List.drop_succ_cons, show n - (k + 1) = n - 1 - k by omega]
          exact ih h (by omega)

/-- The texts agree as far as that is asked for. -/
theorem take_eq (h : BreaksOff n cs ds) : ds.take n = cs.take n := by
  induction h with
  | nil | stop | gap _ => rfl
  | @cons n _ _ _ _ ih =>
      cases n with
      | zero => rfl
      | succ n => simpa using ih

theorem cons_of_left (h : BreaksOff n (c :: cs) ds) (hn : 0 < n) :
    ∃ es, ds = c :: es ∧ BreaksOff (n - 1) cs es := by
  cases h with
  | stop | gap _ => exact absurd hn (Nat.lt_irrefl 0)
  | cons h => exact ⟨_, rfl, h⟩

theorem append_of_left (ps : List Char) (h : BreaksOff n (ps ++ cs) ds) (hn : ps.length ≤ n) :
    ∃ es, ds = ps ++ es ∧ BreaksOff (n - ps.length) cs es := by
  induction ps generalizing n ds with
  | nil => exact ⟨ds, rfl, h⟩
  | cons p ps ih =>
      rw [List.length_cons] at hn ⊢
      obtain ⟨es, rfl, h₁⟩ := h.cons_of_left (by omega)
      obtain ⟨es, rfl, h₂⟩ := ih h₁ (by omega)
      exact ⟨es, rfl, by rwa [show n - (ps.length + 1) = n - 1 - ps.length by omega]⟩

/-- The first text shows a character before the place if the second one shows one that starts no
gap. -/
theorem cons_of_right (h : BreaksOff n cs (c :: ds)) (hc : startsGap c = false) :
    ∃ es, cs = c :: es ∧ BreaksOff (n - 1) es ds := by
  cases h with
  | gap h => rw [h] at hc; cases hc
  | cons h => exact ⟨_, rfl, h⟩

theorem left_prefix {ps : List Char} (h : BreaksOff n cs ds) (hps : ps <+: cs)
    (hn : ps.length ≤ n) :
    ps <+: ds := by
  induction ps generalizing n cs ds with
  | nil => exact List.nil_prefix
  | cons p ps ih =>
      obtain ⟨cs, rfl, htail⟩ := List.cons_prefix_iff.mp hps
      rw [List.length_cons] at hn
      obtain ⟨es, rfl, h₁⟩ := h.cons_of_left (by omega)
      exact List.cons_prefix_cons.mpr ⟨rfl, ih h₁ htail (by omega)⟩

/-- What has no layout in it and begins the second text begins the first one as well. -/
theorem right_prefix {ps : List Char} (h : BreaksOff n cs ds) (hps : ps <+: ds)
    (hsolid : ∀ c ∈ ps, startsGap c = false) : ps <+: cs := by
  induction ps generalizing n cs ds with
  | nil => exact List.nil_prefix
  | cons p ps ih =>
      obtain ⟨ds, rfl, htail⟩ := List.cons_prefix_iff.mp hps
      obtain ⟨es, rfl, h₁⟩ := h.cons_of_right (hsolid p List.mem_cons_self)
      exact List.cons_prefix_cons.mpr
        ⟨rfl, ih h₁ htail fun c hc => hsolid c (List.mem_cons_of_mem p hc)⟩

/-- The next characters are the same, or the text ends or a gap begins. -/
theorem head (h : BreaksOff n cs ds) :
    ds.head? = cs.head? ∨ (n = 0 ∧ ∀ c ∈ ds.head?, startsGap c = true) := by
  cases h with
  | nil => exact .inl rfl
  | stop => exact .inr ⟨rfl, by simp⟩
  | gap hc => exact .inr ⟨rfl, by simpa using hc⟩
  | cons _ => exact .inl rfl

theorem inv (h : BreaksOff n cs ds) :
    ((cs = [] ∨ n = 0) ∧ ds = []) ∨ (n = 0 ∧ ∃ c es, ds = c :: es ∧ startsGap c = true) ∨
      ∃ c cs' ds', cs = c :: cs' ∧ ds = c :: ds' ∧ BreaksOff (n - 1) cs' ds' := by
  cases h with
  | nil => exact .inl ⟨.inl rfl, rfl⟩
  | stop => exact .inl ⟨.inr rfl, rfl⟩
  | gap hc => exact .inr (.inl ⟨rfl, _, _, rfl, hc⟩)
  | cons h => exact .inr (.inr ⟨_, _, _, rfl, rfl, h⟩)

/-- The text may end anywhere behind the lexeme. -/
theorem cut (h : n ≤ k) (cs : List Char) : BreaksOff n cs (cs.take k) := by
  induction k generalizing n cs with
  | zero =>
      obtain rfl := Nat.le_zero.mp h
      exact .stop
  | succ k ih =>
      cases cs with
      | nil => exact .nil
      | cons c cs => exact .cons (ih (by omega) cs)

end BreaksOff

/-! ### Runs of characters -/

section

variable {n : Nat} {cs ds : List Char} {p : Char → Bool}

/-- No gap begins with a character of the class. -/
def Solid (p : Char → Bool) : Prop := ∀ c, startsGap c = true → p c = false

/-- A run of characters stays the same if it stops before the texts part. -/
theorem takeWhile_breaksOff (hp : Solid p) (h : BreaksOff n cs ds)
    (hn : (cs.takeWhile p).length ≤ n) : (ds.takeWhile p).length = (cs.takeWhile p).length := by
  induction h with
  | nil => rfl
  | stop => exact (Nat.le_zero.mp hn).symm
  | gap hc =>
      rw [List.takeWhile_cons_of_neg (by simp [hp _ hc])]
      exact (Nat.le_zero.mp hn).symm
  | @cons n c cs ds _ ih =>
      by_cases hc : p c = true
      · rw [List.takeWhile_cons_of_pos hc, List.length_cons] at hn
        simp [hc, ih (by omega)]
      · simp [hc]

theorem Avoids.breaksOff (hcs : Avoids p cs) (hp : Solid p) (h : BreaksOff n cs ds) :
    Avoids p ds := by
  intro c hc
  rcases h.head with heq | ⟨-, hgap⟩
  · exact hcs c (heq ▸ hc)
  · exact hp c (hgap c hc)

theorem digitsLength_breaksOff (hp : Solid p) (h : BreaksOff n cs ds) (hn : digitsLength p cs ≤ n) :
    digitsLength p ds = digitsLength p cs := by
  induction h with
  | nil => rfl
  | stop => exact (Nat.le_zero.mp hn).symm
  | @gap c cs ds hc =>
      have hne : c ≠ '_' := by
        rintro rfl
        cases hc
      simp only [digitsLength, hp c hc, hne, decide_false, Bool.false_and,
        Bool.false_eq_true, if_false]
      exact (Nat.le_zero.mp hn).symm
  | @cons n c cs ds h ih =>
      by_cases hc : p c = true
      · simp only [digitsLength, hc, if_true] at hn ⊢
        rw [ih (by omega)]
      by_cases hu : c = '_'
      · subst hu
        rcases hany : cs.head?.any p with _ | _
        · have hany' : ds.head?.any p = false := by
            rcases h.head with heq | ⟨-, hgap⟩
            · rw [heq, hany]
            · cases hd : ds.head? with
              | none => rfl
              | some d => simp [hp d (hgap d hd)]
          simp [digitsLength, hc, hany, hany']
        · simp only [digitsLength, hc, hany, decide_true, Bool.and_true, if_true,
            Bool.false_eq_true, if_false] at hn ⊢
          -- The digit behind the underscore belongs to the run, so the text breaks off behind it.
          have hpos : 0 < digitsLength p cs := by
            obtain ⟨d, ds', rfl⟩ : ∃ d ds', cs = d :: ds' := by
              cases cs with
              | nil => cases hany
              | cons d ds' => exact ⟨d, ds', rfl⟩
            have hd : p d = true := by simpa using hany
            simp [digitsLength, hd]
          have hhead : ds.head? = cs.head? :=
            h.head.resolve_right fun hgap => absurd hgap.1 (by omega)
          rw [hhead, hany, ih (by omega)]
          simp
      · simp [digitsLength, hc, hu]

/-- The class leaves out blanks and the percent sign. -/
theorem solid_of_any (h : ([' ', '\t', '\n', '\x0c', '\r', '%'].any p) = false) : Solid p := by
  intro c hc
  have hmem : c ∈ [' ', '\t', '\n', '\x0c', '\r', '%'] := by
    simpa [startsGap, isLayout, or_assoc] using hc
  exact Bool.eq_false_iff.mpr (List.any_eq_false.mp h c hmem)

theorem solid_isDigit : Solid Char.isDigit := solid_of_any (by decide)

theorem solid_isAlphanum : Solid Char.isAlphanum := solid_of_any (by decide)

theorem solid_isNameChar : Solid isNameChar := solid_of_any (by decide)

theorem solid_radix (base : Nat) : Solid (Radix.isDigit base) := by
  intro c hc
  have hany : ([' ', '\t', '\n', '\x0c', '\r', '%'].any (Radix.isDigit base)) = false := by
    rfl
  exact solid_of_any hany c hc

end

/-! ### Numbers -/

section

variable {n : Nat} {cs ds : List Char}

theorem exponentLength_ne_one (cs : List Char) : exponentLength cs ≠ 1 := by
  rcases cs with _ | ⟨c, _ | ⟨d, cs⟩⟩
  · simp [exponentLength]
  · simp [exponentLength]
  · simp only [exponentLength]
    repeat' split
    all_goals simp

theorem exponentLength_breaksOff (h : BreaksOff n cs ds) (hn : exponentLength cs ≤ n) :
    exponentLength ds = exponentLength cs := by
  have hne := exponentLength_ne_one cs
  rcases h.inv with ⟨rfl | rfl, rfl⟩ | ⟨rfl, c, es, rfl, hc⟩ | ⟨c, cs, es, rfl, rfl, h₁⟩
  · rfl
  · exact (Nat.le_zero.mp hn).symm
  · have hmark : ¬(c = 'e' ∨ c = 'E') := by
      rintro (rfl | rfl) <;> cases hc
    have hzero : exponentLength (c :: es) = 0 := by simp [exponentLength, hmark]
    omega
  rcases h₁.inv with ⟨rfl | hle, rfl⟩ | ⟨hle, s, es, rfl, hs⟩ | ⟨s, cs, es, rfl, rfl, h₂⟩
  · rfl
  · have hzero : exponentLength [c] = 0 := by simp [exponentLength]
    omega
  · have hsign : ¬(s = '+' ∨ s = '-') := by
      rintro (rfl | rfl) <;> cases hs
    have hzero : exponentLength (c :: s :: es) = 0 := by
      simp [exponentLength, hsign, solid_isDigit s hs]
    omega
  · simp only [exponentLength, Bool.or_eq_true, decide_eq_true_eq] at hn ⊢
    by_cases hc : c = 'e' ∨ c = 'E'
    · have hrun (hle : (cs.takeWhile Char.isDigit).length ≤ n - 1 - 1) :=
        takeWhile_breaksOff solid_isDigit h₂ hle
      simp only [hc, if_true] at hn ⊢
      split
      · next hs =>
        simp only [hs, if_true] at hn
        rw [hrun (by split at hn <;> omega)]
      · next hs =>
        simp only [hs, if_false] at hn
        split
        · next hd =>
          simp only [hd, if_true] at hn
          rw [hrun (by omega)]
        · rfl
    · simp only [hc, if_false]

theorem takeWhile_le_digitsLength (cs : List Char) :
    (cs.takeWhile Char.isDigit).length ≤ digitsLength Char.isDigit cs := by
  induction cs with
  | nil => simp
  | cons c cs ih =>
      by_cases hc : c.isDigit = true
      · simp [digitsLength, hc, ih]
      · simp [hc]

/-- The length of a number with a base. -/
def basedLength? (cs : List Char) : Option Nat :=
  match cs.drop (cs.takeWhile Char.isDigit).length with
  | '#' :: d :: ds =>
    if d.isAlphanum then
      some ((cs.takeWhile Char.isDigit).length + 2 + digitsLength Char.isAlphanum ds)
    else none
  | _ => none

/-- The number without a base that has this many characters before its fraction. -/
def decimalOrFloat (whole : Nat) : List Char → LexemeKind × Nat
  | '.' :: d :: ds =>
    if d.isDigit then
      (.float, whole + 2 + digitsLength Char.isDigit ds +
        exponentLength (ds.drop (digitsLength Char.isDigit ds)))
    else (.decimal, whole)
  | '_' :: _ => (.decimal, whole + 1)
  | _ => (.decimal, whole)

theorem number_eq (cs : List Char) :
    number cs =
      match basedLength? cs with
      | some n => (.based, n)
      | none => decimalOrFloat (digitsLength Char.isDigit cs)
          (cs.drop (digitsLength Char.isDigit cs)) := by
  rfl

theorem basedLength?_eq_some {k : Nat} :
    basedLength? cs = some k ↔
      ∃ d es, cs.drop (cs.takeWhile Char.isDigit).length = '#' :: d :: es ∧ d.isAlphanum = true ∧
        k = (cs.takeWhile Char.isDigit).length + 2 + digitsLength Char.isAlphanum es := by
  unfold basedLength?
  split
  · next d es heq =>
    rw [heq]
    constructor
    · intro h
      split at h
      · next hd => exact ⟨d, es, rfl, hd, (Option.some.inj h).symm⟩
      · cases h
    · rintro ⟨d', es', heq', hd, rfl⟩
      obtain ⟨rfl, rfl⟩ : d = d' ∧ es = es' := by simpa using heq'
      rw [if_pos hd]
  · next hne => simpa using fun d es heq => absurd heq (hne d es)

theorem basedLength?_of_some {k : Nat} (h : BreaksOff n cs ds) (hk : basedLength? cs = some k)
    (hn : k ≤ n) : basedLength? ds = some k := by
  obtain ⟨d, es, hdrop, hd, rfl⟩ := basedLength?_eq_some.mp hk
  have hrun := takeWhile_breaksOff solid_isDigit h (by omega)
  have h₁ := h.drop (k := (cs.takeWhile Char.isDigit).length) (by omega)
  rw [hdrop] at h₁
  obtain ⟨es₁, hes₁, h₂⟩ := h₁.cons_of_left (by omega)
  obtain ⟨es₂, rfl, h₃⟩ := h₂.cons_of_left (by omega)
  have hdigits := digitsLength_breaksOff solid_isAlphanum h₃ (by omega)
  exact basedLength?_eq_some.mpr ⟨d, es₂, by rw [hrun, hes₁], hd, by rw [hrun, hdigits]⟩

theorem basedLength?_of_none (h : BreaksOff n cs ds) (hk : basedLength? cs = none)
    (hn : (cs.takeWhile Char.isDigit).length ≤ n) : basedLength? ds = none := by
  refine Option.eq_none_iff_forall_not_mem.mpr fun k hmem => ?_
  obtain ⟨d, es, hdrop, hd, -⟩ := basedLength?_eq_some.mp hmem
  have h₁ := h.drop hn
  rw [takeWhile_breaksOff solid_isDigit h hn] at hdrop
  rw [hdrop] at h₁
  obtain ⟨es₁, hes₁, h₂⟩ := h₁.cons_of_right (by decide)
  obtain ⟨es₂, rfl, -⟩ := h₂.cons_of_right (Bool.eq_false_iff.mpr fun hgap => by
    simp [solid_isAlphanum d hgap] at hd)
  have := basedLength?_eq_some.mpr ⟨d, es₂, hes₁, hd, rfl⟩
  simp [hk] at this

theorem le_decimalOrFloat (whole : Nat) (cs : List Char) : whole ≤ (decimalOrFloat whole cs).2 := by
  unfold decimalOrFloat
  repeat' split
  all_goals simp
  omega

theorem decimalOrFloat_of_le {whole : Nat} (h : (decimalOrFloat whole cs).2 ≤ whole) :
    decimalOrFloat whole cs = (.decimal, whole) := by
  unfold decimalOrFloat at h ⊢
  repeat' split at h
  all_goals simp_all
  all_goals omega

theorem decimalOrFloat_breaksOff {whole : Nat} (h : BreaksOff (n - whole) cs ds)
    (hn : (decimalOrFloat whole cs).2 ≤ n) : decimalOrFloat whole ds = decimalOrFloat whole cs := by
  rcases h.inv with ⟨rfl | hle, rfl⟩ | ⟨hle, c, es, rfl, hc⟩ | ⟨c, cs, es, rfl, rfl, h₁⟩
  · rfl
  · exact (decimalOrFloat_of_le (by omega)).symm
  · have hplain : decimalOrFloat whole (c :: es) = (.decimal, whole) := by
      unfold decimalOrFloat
      split <;> simp_all [startsGap, isLayout]
    rw [hplain, decimalOrFloat_of_le (by omega)]
  by_cases hpoint : c = '.'
  · subst hpoint
    -- A fraction would go on behind the place where the text breaks off.
    have hpoint (hle : n - whole - 1 = 0) :
        decimalOrFloat whole ('.' :: cs) = (.decimal, whole) := by
      cases cs with
      | nil => rfl
      | cons e cs =>
          by_cases he : e.isDigit = true
          · simp only [decimalOrFloat, he, if_true] at hn
            omega
          · simp [decimalOrFloat, he]
    rcases h₁.inv with ⟨rfl | hle, rfl⟩ | ⟨hle, d, es, rfl, hd⟩ | ⟨d, cs, es, rfl, rfl, h₂⟩
    · rfl
    · rw [hpoint hle]
      rfl
    · have hplain : decimalOrFloat whole ('.' :: d :: es) = (.decimal, whole) := by
        simp [decimalOrFloat, solid_isDigit d hd]
      rw [hplain, hpoint hle]
    · by_cases hd : d.isDigit = true
      · simp only [decimalOrFloat, hd, if_true] at hn ⊢
        rw [digitsLength_breaksOff solid_isDigit h₂ (by omega),
          exponentLength_breaksOff (h₂.drop (by omega)) (by omega)]
      · simp [decimalOrFloat, hd]
  · unfold decimalOrFloat
    split <;> simp_all

/-- A number does not look further than the place where the text breaks off. -/
theorem number_breaksOff (h : BreaksOff n cs ds) (hn : (number cs).2 ≤ n) :
    number ds = number cs := by
  rw [number_eq] at hn
  rw [number_eq, number_eq]
  cases hbased : basedLength? cs with
  | some k =>
      rw [hbased] at hn
      rw [basedLength?_of_some h hbased hn]
  | none =>
      rw [hbased] at hn
      have hwhole := Nat.le_trans (le_decimalOrFloat _ _) hn
      rw [basedLength?_of_none h hbased (Nat.le_trans (takeWhile_le_digitsLength cs) hwhole),
        digitsLength_breaksOff solid_isDigit h hwhole]
      exact decimalOrFloat_breaksOff (h.drop hwhole) hn

end

/-! ### Quoted texts and characters -/

section

variable {n k : Nat} {cs ds : List Char}

theorem quotedLength?_breaksOff {quote : Char} (h : BreaksOff n cs ds)
    (hk : quotedLength? quote cs = some k) (hn : k ≤ n) : quotedLength? quote ds = some k := by
  fun_induction quotedLength? quote cs generalizing n k ds
  case case1 => cases hk
  case case2 => cases hk
  case case3 c cs hc ih =>
      obtain ⟨l, hl, rfl⟩ := Option.map_eq_some_iff.mp hk
      obtain ⟨es₁, rfl, h₁⟩ := h.cons_of_left (by omega)
      obtain ⟨es₂, rfl, h₂⟩ := h₁.cons_of_left (by omega)
      rw [quotedLength?_escape hc, ih h₂ hl (by omega)]
      rfl
  case case4 => cases hk
  case case5 cs hne hc =>
      obtain rfl := Option.some.inj hk
      obtain ⟨es, rfl, h₁⟩ := h.cons_of_left (by omega)
      rw [quotedLength?] <;> simp [hc]
  case case6 c cs hne hc hq ih =>
      obtain ⟨l, hl, rfl⟩ := Option.map_eq_some_iff.mp hk
      obtain ⟨es, rfl, h₁⟩ := h.cons_of_left (by omega)
      rw [quotedLength?_plain hc hq, ih h₁ hl (by omega)]
      rfl

theorem Lexeme.CharacterForm.breaksOff (hk : CharacterForm cs k) (h : BreaksOff n cs ds)
    (hn : k ≤ n) :
    CharacterForm ds k := by
  cases hk with
  | plain hc =>
      obtain ⟨es, rfl, -⟩ := h.cons_of_left (by omega)
      exact .plain hc
  | @octal d digits rest hd hdigits hlength hrest =>
      obtain ⟨es, rfl, hb⟩ := h.append_of_left ('\\' :: d :: digits) hn
      exact .octal hd hdigits hlength fun hlt => (hrest hlt).breaksOff (solid_radix 8) hb
  | @hexPair h' l rest hh hl =>
      obtain ⟨es, rfl, -⟩ := h.append_of_left ['\\', 'x', h', l] hn
      exact .hexPair hh hl
  | @hexBraces digits rest hne hdigits =>
      have hclosed : BreaksOff n (('\\' :: 'x' :: '{' :: (digits ++ ['}'])) ++ rest) ds := by
        simpa using h
      have hlength : ('\\' :: 'x' :: '{' :: (digits ++ ['}'])).length = digits.length + 4 := by simp
      obtain ⟨es, rfl, -⟩ := hclosed.append_of_left _ (hlength ▸ hn)
      simpa using CharacterForm.hexBraces hne hdigits
  | @control c rest hc =>
      obtain ⟨es, rfl, -⟩ := h.append_of_left ['\\', '^', c] hn
      exact .control hc
  | @other e rest he hx hcaret =>
      obtain ⟨es, rfl, -⟩ := h.append_of_left ['\\', e] hn
      exact .other he hx hcaret

theorem characterLength?_breaksOff (h : BreaksOff n cs ds) (hk : characterLength? cs = some k)
    (hn : k ≤ n) : characterLength? ds = some k :=
  characterLength?_eq_some.mpr ((characterLength?_eq_some.mp hk).breaksOff h hn)

end

/-! ### Symbols -/

namespace Symbol

theorem foldl_longer_le {ts : List Symbol} {best : Option Symbol} {s : Symbol}
    (h : ts.foldl longer best = some s) :
    (s ∈ ts ∨ best = some s) ∧ (∀ t ∈ ts, t.text.length ≤ s.text.length) ∧
      ∀ t ∈ best, t.text.length ≤ s.text.length := by
  induction ts generalizing best with
  | nil =>
      obtain rfl : best = some s := h
      simp
  | cons t ts ih =>
      obtain ⟨hmem, hle, hround⟩ := @ih (longer best t) h
      cases best with
      | none =>
          have ht := hround t rfl
          refine ⟨.inl ?_, List.forall_mem_cons.mpr ⟨ht, hle⟩, by simp⟩
          exact hmem.elim (List.mem_cons_of_mem t) fun heq =>
            Option.some.inj heq ▸ List.mem_cons_self
      | some u =>
          by_cases hlt : u.text.length < t.text.length
          · simp only [longer, hlt, if_true] at hmem hround
            have ht := hround t rfl
            refine ⟨.inl ?_, List.forall_mem_cons.mpr ⟨ht, hle⟩, by simp; omega⟩
            exact hmem.elim (List.mem_cons_of_mem t) fun heq =>
              Option.some.inj heq ▸ List.mem_cons_self
          · simp only [longer, hlt, if_false] at hmem hround
            have hu := hround u rfl
            exact ⟨hmem.imp_left (List.mem_cons_of_mem t),
              List.forall_mem_cons.mpr ⟨by omega, hle⟩, hround⟩

/-- The longest symbol is one that the text starts with, and no other one is longer. -/
theorem longest?_le {cs : List Char} {s : Symbol} (h : longest? cs = some s) :
    s ∈ matching cs ∧ ∀ t ∈ matching cs, t.text.length ≤ s.text.length := by
  rw [longest?_eq_foldl] at h
  obtain ⟨hmem, hle, -⟩ := foldl_longer_le h
  exact ⟨hmem.resolve_right (by simp), hle⟩

theorem mem_matching {s : Symbol} {cs : List Char} : s ∈ matching cs ↔ s.text.toList <+: cs := by
  simp [matching, mem_all]

theorem startsGap_text (s : Symbol) : ∀ c ∈ s.text.toList, startsGap c = false := by
  refine fun c hc => Bool.eq_false_iff.mpr fun hgap => ?_
  have hall : (s.text.toList.any startsGap) = false := by cases s <;> decide
  exact List.any_eq_false.mp hall c hc hgap

/-- The longest symbol stays the longest one. -/
theorem longest?_breaksOff {n : Nat} {cs ds : List Char} {s : Symbol} (h : BreaksOff n cs ds)
    (hs : longest? cs = some s) (hn : s.text.length ≤ n) : longest? ds = some s := by
  obtain ⟨hmem, hle⟩ := longest?_le hs
  rw [longest?_eq_foldl]
  have hprefix := h.left_prefix (mem_matching.mp hmem) (by rwa [String.length_toList])
  refine foldl_longer ?_ (by simp) (.inl (mem_matching.mpr hprefix))
  intro t ht hne
  have htext := mem_matching.mp ht
  have hlt := hle t (mem_matching.mpr (h.right_prefix htext (startsGap_text t)))
  refine Nat.lt_of_le_of_ne hlt fun heq => hne ?_
  have hlength : t.text.toList.length = s.text.toList.length := by
    rw [String.length_toList, String.length_toList, heq]
  refine text_injective t (mem_all t) s (mem_all s) ?_
  exact (List.prefix_of_prefix_length_le htext hprefix (Nat.le_of_eq hlength)).eq_of_length hlength

end Symbol

/-! ### Lexemes -/

section

variable {c : Char} {n : Nat} {cs ds : List Char}

theorem digitsLength_le (p : Char → Bool) (cs : List Char) : digitsLength p cs ≤ cs.length := by
  induction cs with
  | nil => simp [digitsLength]
  | cons c cs ih =>
      simp only [digitsLength, List.length_cons]
      repeat' split
      all_goals omega

theorem exponentLength_le (cs : List Char) : exponentLength cs ≤ cs.length := by
  rcases cs with _ | ⟨c, _ | ⟨d, cs⟩⟩
  · simp [exponentLength]
  · simp [exponentLength]
  · have hle := (List.takeWhile_prefix Char.isDigit (l := cs)).length_le
    simp only [exponentLength, List.length_cons]
    repeat' split
    all_goals omega

theorem number_le (cs : List Char) : (number cs).2 ≤ cs.length := by
  rw [number_eq]
  cases hbased : basedLength? cs with
  | some k =>
      obtain ⟨d, es, hdrop, -, rfl⟩ := basedLength?_eq_some.mp hbased
      have hlength := congrArg List.length hdrop
      have hle := digitsLength_le Char.isAlphanum es
      simp only [List.length_drop, List.length_cons] at hlength ⊢
      omega
  | none =>
      have hwhole := digitsLength_le Char.isDigit cs
      have hlength := List.length_drop (i := digitsLength Char.isDigit cs) (l := cs)
      simp only
      unfold decimalOrFloat
      split
      · next d es hdrop =>
        have hdigits := digitsLength_le Char.isDigit es
        have hexponent := exponentLength_le (es.drop (digitsLength Char.isDigit es))
        simp only [hdrop, List.length_drop, List.length_cons] at hlength hexponent
        split
        · simp only
          omega
        · exact hwhole
      · next hdrop =>
        simp only [hdrop, List.length_cons] at hlength ⊢
        omega
      · exact hwhole

theorem quotedLength?_le {quote : Char} (h : quotedLength? quote cs = some n) : n ≤ cs.length := by
  fun_induction quotedLength? quote cs generalizing n
  case case1 => cases h
  case case2 => cases h
  case case3 c cs hc ih =>
      obtain ⟨k, hk, rfl⟩ := Option.map_eq_some_iff.mp h
      exact Nat.add_le_add_right (ih hk) 2
  case case4 => cases h
  case case5 =>
      obtain rfl := Option.some.inj h
      simp
  case case6 c cs hne hc hq ih =>
      obtain ⟨k, hk, rfl⟩ := Option.map_eq_some_iff.mp h
      exact Nat.add_le_add_right (ih hk) 1

theorem characterLength?_le (h : characterLength? cs = some n) : n ≤ cs.length := by
  cases characterLength?_eq_some.mp h
  all_goals simp only [List.length_cons, List.length_append]
  all_goals omega

theorem longest?_le {kind : LexemeKind} (h : longest? c cs = some (kind, n)) : n ≤ cs.length := by
  have hname := (List.takeWhile_prefix isNameChar (l := cs)).length_le
  have hcomment := (List.takeWhile_prefix (· ≠ '\n') (l := cs)).length_le
  have hnumber := number_le cs
  rw [longest?] at h
  repeat' split at h
  all_goals simp only [Option.some.injEq, Option.map_eq_some_iff, Prod.mk.injEq] at h
  · omega
  · omega
  · simp_all
  · obtain ⟨k, hk, -, rfl⟩ := h
    exact characterLength?_le hk
  · obtain ⟨k, hk, -, rfl⟩ := h
    exact quotedLength?_le hk
  · obtain ⟨k, hk, -, rfl⟩ := h
    exact quotedLength?_le hk
  · omega
  · obtain ⟨s, hs, -, rfl⟩ := h
    have hle := (Symbol.mem_matching.mp (Symbol.longest?_le hs).1).length_le
    rw [String.length_toList, List.length_cons] at hle
    omega

/-- A lexeme lies within the text. -/
theorem next?_le {t : Token} (h : next? c cs = some (t, n)) : n ≤ cs.length := by
  obtain ⟨kind, hl, -⟩ := next?_eq_some h
  exact longest?_le hl

end

section

variable {c : Char} {n : Nat} {cs ds : List Char}

theorem longest?_breaksOff {kind : LexemeKind} (h : BreaksOff n cs ds)
    (hl : longest? c cs = some (kind, n)) (hcomment : kind ≠ .comment) :
    longest? c ds = some (kind, n) := by
  have hname : (cs.takeWhile isNameChar).length = n → (ds.takeWhile isNameChar).length = n := by
    rintro rfl
    exact takeWhile_breaksOff solid_isNameChar h (Nat.le_refl _)
  rw [longest?] at hl ⊢
  by_cases hword : c.isLower = true
  · rw [if_pos hword, Option.some.injEq, Prod.mk.injEq] at hl ⊢
    exact ⟨hl.1, hname hl.2⟩
  rw [if_neg hword] at hl ⊢
  by_cases hvar : isVariableStart c = true
  · rw [if_pos hvar, Option.some.injEq, Prod.mk.injEq] at hl ⊢
    exact ⟨hl.1, hname hl.2⟩
  rw [if_neg hvar] at hl ⊢
  by_cases hdigit : c.isDigit = true
  · rw [if_pos hdigit, Option.some.injEq] at hl ⊢
    rw [number_breaksOff h (by simp [hl]), hl]
  rw [if_neg hdigit] at hl ⊢
  by_cases hchar : c = '$'
  · rw [if_pos hchar, Option.map_eq_some_iff] at hl ⊢
    obtain ⟨k, hk, heq⟩ := hl
    obtain ⟨-, rfl⟩ := Prod.mk.inj heq
    exact ⟨k, characterLength?_breaksOff h hk (Nat.le_refl k), heq⟩
  rw [if_neg hchar] at hl ⊢
  by_cases hstring : c = '"'
  · rw [if_pos hstring, Option.map_eq_some_iff] at hl ⊢
    obtain ⟨k, hk, heq⟩ := hl
    obtain ⟨-, rfl⟩ := Prod.mk.inj heq
    exact ⟨k, quotedLength?_breaksOff h hk (Nat.le_refl k), heq⟩
  rw [if_neg hstring] at hl ⊢
  by_cases hatom : c = '\''
  · rw [if_pos hatom, Option.map_eq_some_iff] at hl ⊢
    obtain ⟨k, hk, heq⟩ := hl
    obtain ⟨-, rfl⟩ := Prod.mk.inj heq
    exact ⟨k, quotedLength?_breaksOff h hk (Nat.le_refl k), heq⟩
  rw [if_neg hatom] at hl ⊢
  by_cases hpercent : c = '%'
  · rw [if_pos hpercent, Option.some.injEq, Prod.mk.injEq] at hl
    exact absurd hl.1.symm hcomment
  rw [if_neg hpercent, Option.map_eq_some_iff] at hl ⊢
  obtain ⟨s, hs, heq⟩ := hl
  obtain ⟨-, rfl⟩ := Prod.mk.inj heq
  refine ⟨s, Symbol.longest?_breaksOff (n := s.text.length - 1 + 1) (.cons h) hs (by omega), heq⟩

/-- The token that is read is the same if the text behind it breaks off. -/
theorem next?_breaksOff {t : Token} (h : BreaksOff n cs ds) (ht : next? c cs = some (t, n))
    (hcomment : t ≠ .comment) : next? c ds = some (t, n) := by
  obtain ⟨kind, hl, htoken⟩ := next?_eq_some ht
  have hkind : kind ≠ .comment := by
    rintro rfl
    exact hcomment (Option.some.inj htoken).symm
  simp [next?, longest?_breaksOff h hl hkind, h.take_eq, htoken]

end

end ErlangFragment
