import ErlangFragment.Proofs.Token.Escape
import ErlangFragment.Proofs.Token.Integer

/-! Character literals and the reading of their escapes. An escape is read character by character,
with its code point in a word of 32 bits, and the pattern that finds the end of a literal takes
exactly as many characters as this reading does. -/

namespace ErlangFragment

open Radix

/-! ### Values of digits in a word -/

namespace Radix

variable {base v : Nat} {c : Char} {cs : List Char}

/-- The number that the digits denote behind those of `v`. -/
def valueFrom (base v : Nat) (digits : List Char) : Nat :=
  digits.foldl (fun v c => v * base + (digitValue? c).getD 0) v

theorem valueFrom_cons (base v : Nat) (c : Char) (cs : List Char) :
    valueFrom base v (c :: cs) = valueFrom base (v * base + (digitValue? c).getD 0) cs := rfl

theorem digitValue?_lt (h : isDigit base c = true) : (digitValue? c).getD 0 < base := by
  unfold isDigit at h
  split at h
  · next hd => simpa [hd] using h
  · cases h

theorem le_valueFrom (hbase : 0 < base) (v : Nat) (cs : List Char) : v ≤ valueFrom base v cs := by
  induction cs generalizing v with
  | nil => exact Nat.le_refl v
  | cons c cs ih =>
      rw [valueFrom_cons]
      have hstep : v ≤ v * base := Nat.le_mul_of_pos_right v hbase
      exact Nat.le_trans (by omega) (ih _)

/-- Digits behind those of `v` never carry into them. -/
theorem valueFrom_lt (h : ∀ c ∈ cs, isDigit base c = true) (v : Nat) :
    valueFrom base v cs < (v + 1) * base ^ cs.length := by
  induction cs generalizing v with
  | nil => simp [valueFrom]
  | cons c cs ih =>
      obtain ⟨hc, hcs⟩ := List.forall_mem_cons.mp h
      have hd := digitValue?_lt hc
      calc valueFrom base v (c :: cs)
        _ < (v * base + (digitValue? c).getD 0 + 1) * base ^ cs.length := ih hcs _
        _ ≤ ((v + 1) * base) * base ^ cs.length :=
          Nat.mul_le_mul_right _ (by rw [Nat.succ_mul]; omega)
        _ = (v + 1) * base ^ (c :: cs).length := by
          rw [List.length_cons, Nat.pow_succ, Nat.mul_assoc, Nat.mul_comm base]

theorem value_lt (h : ∀ c ∈ cs, isDigit base c = true) : value base cs < base ^ cs.length := by
  simpa [valueFrom, value] using valueFrom_lt h 0

end Radix

namespace Quoted

/-- The product, if it fits the word. -/
def checkedMul? (a b : UInt32) : Option UInt32 :=
  if a.toNat * b.toNat < 2 ^ 32 then some (a * b) else none

/-- The sum, if it fits the word. -/
def checkedAdd? (a b : UInt32) : Option UInt32 :=
  if a.toNat + b.toNat < 2 ^ 32 then some (a + b) else none

/-- The number with one more hexadecimal digit, if it fits the word. -/
def push? (v d : UInt32) : Option UInt32 := do checkedAdd? (← checkedMul? v 16) d

/-- What the character counts as a digit of the base. -/
def digit? (base : Nat) (c : Char) : Option UInt32 :=
  if isDigit base c then (digitValue? c).map UInt32.ofNat else none

/-- Up to so many octal digits, behind those of `v`. -/
def readOctal : Nat → UInt32 → List Char → Option (Char × List Char)
  | n + 1, v, c :: cs =>
    match digit? 8 c with
    | some d => readOctal n (v * 8 + d) cs
    | none => (scalar? v.toNat).map (·, c :: cs)
  | _, v, cs => (scalar? v.toNat).map (·, cs)

/-- Hexadecimal digits up to a brace, behind those of `v`, if there are any. -/
def readBraced (v : UInt32) (hasDigits : Bool) : List Char → Option (Char × List Char)
  | [] => none
  | c :: cs =>
    if c = '}' then
      if hasDigits then (scalar? v.toNat).map (·, cs) else none
    else do readBraced (← push? v (← digit? 16 c)) true cs

/-- What follows `\x`. -/
def readHex : List Char → Option (Char × List Char)
  | '{' :: cs => readBraced 0 false cs
  | h :: l :: cs => do
    let high ← digit? 16 h
    let low ← digit? 16 l
    (scalar? (high * 16 + low).toNat).map (·, cs)
  | _ => none

/-- The character that is written behind a backslash, and what follows it. -/
def readEscape : List Char → Option (Char × List Char)
  | [] => none
  | c :: cs =>
    match letterEscape? c with
    | some d => some (d, cs)
    | none =>
      if isDigit 8 c then do readOctal 2 (← digit? 8 c) cs
      else if c = 'x' then readHex cs
      else if c = '^' then
        match cs with
        | d :: ds => (scalar? (d.toNat &&& 0x1f)).map (·, ds)
        | [] => none
      else some (c, cs)

variable {v d : UInt32} {c : Char} {cs ds : List Char} {n : Nat} {hasDigits : Bool}

/-! ### Words as numbers -/

theorem digit?_eq_none (h : isDigit n c = false) : digit? n c = none := by
  simp [digit?, h]

theorem exists_digit? (hn : n ≤ 16) (h : isDigit n c = true) :
    ∃ d, digit? n c = some d ∧ d.toNat = (digitValue? c).getD 0 := by
  have hlt := digitValue?_lt h
  rw [digit?, if_pos h]
  unfold isDigit at h
  split at h
  · next d hd =>
    rw [hd, Option.getD_some] at hlt
    have hword : d < UInt32.size := Nat.lt_of_lt_of_le hlt (Nat.le_trans hn (by decide))
    exact ⟨.ofNat d, by rw [hd]; rfl, by rw [hd]; exact UInt32.toNat_ofNat_of_lt' hword⟩
  · cases h

/-- Checked arithmetic in 32 bits gives the exact value as long as it fits. -/
theorem toNat_mul_add {w : UInt32} (h : v.toNat * w.toNat + d.toNat < 2 ^ 32) :
    (v * w + d).toNat = v.toNat * w.toNat + d.toNat := by
  rw [UInt32.toNat_add, UInt32.toNat_mul, Nat.mod_add_mod, Nat.mod_eq_of_lt h]

/-- A word takes one more digit exactly, or has no room for it. -/
theorem push?_cases (v d : UInt32) :
    (∃ w, push? v d = some w ∧ w.toNat = v.toNat * 16 + d.toNat) ∨
      push? v d = none ∧ 2 ^ 32 ≤ v.toNat * 16 + d.toNat := by
  by_cases hmul : v.toNat * 16 < 2 ^ 32
  · have hchecked : checkedMul? v 16 = some (v * 16) := if_pos hmul
    have hshift : (v * 16).toNat = v.toNat * 16 := by
      rw [UInt32.toNat_mul]
      exact Nat.mod_eq_of_lt hmul
    have hpush : push? v d = checkedAdd? (v * 16) d := by
      rw [push?, hchecked]
      rfl
    rw [hpush, checkedAdd?, hshift]
    split
    · next hadd => exact .inl ⟨_, rfl, toNat_mul_add hadd⟩
    · next hadd => exact .inr ⟨rfl, Nat.le_of_not_lt hadd⟩
  · have hchecked : checkedMul? v 16 = none := if_neg hmul
    refine .inr ⟨?_, by omega⟩
    rw [push?, hchecked]
    rfl

/-! ### Braces -/

theorem scalar?_eq_none_of_le (h : 2 ^ 32 ≤ n) : scalar? n = none := by
  have hvalid : ¬n.isValidChar := by
    rw [Nat.isValidChar]
    omega
  simp [scalar?, hvalid]

/-- One digit in braces is taken exactly, or the number is none of a character whatever follows. -/
theorem readBraced_digit (hc : isDigit 16 c = true) (v : UInt32) (hasDigits : Bool) :
    (∃ w : UInt32, w.toNat = v.toNat * 16 + (digitValue? c).getD 0 ∧
        ∀ cs, readBraced v hasDigits (c :: cs) = readBraced w true cs) ∨
      2 ^ 32 ≤ v.toNat * 16 + (digitValue? c).getD 0 ∧
      ∀ cs, readBraced v hasDigits (c :: cs) = none := by
  obtain ⟨d, hd, hvalue⟩ := exists_digit? (Nat.le_refl 16) hc
  have hstep (cs) : readBraced v hasDigits (c :: cs) = (push? v d).bind (readBraced · true cs) := by
    rw [readBraced, if_neg (ne_rightBrace_of_isDigit hc), hd]
    rfl
  rw [← hvalue]
  rcases push?_cases v d with ⟨w, hpush, hw⟩ | ⟨hpush, hle⟩
  · exact .inl ⟨w, hw, fun cs => by rw [hstep, hpush, Option.bind_some]⟩
  · exact .inr ⟨hle, fun cs => by rw [hstep, hpush, Option.bind_none]⟩

/-- Hexadecimal digits with the brace behind them, at any value read so far. -/
theorem readBraced_closed (hds : ∀ d ∈ ds, isDigit 16 d = true) (v : UInt32) (hasDigits : Bool)
    (rest : List Char) :
    readBraced v hasDigits (ds ++ '}' :: rest) =
      if hasDigits || ds ≠ [] then (scalar? (valueFrom 16 v.toNat ds)).map (·, rest) else none := by
  induction ds generalizing v hasDigits with
  | nil => simp [readBraced, valueFrom]
  | cons c ds ih =>
      obtain ⟨hc, hds⟩ := List.forall_mem_cons.mp hds
      rw [List.cons_append, valueFrom_cons]
      rcases readBraced_digit hc v hasDigits with ⟨w, hw, hread⟩ | ⟨hle, hread⟩
      · rw [hread, ih hds, ← hw]
        simp
      · have hnone :=
          scalar?_eq_none_of_le (Nat.le_trans hle (le_valueFrom (by decide : 0 < 16) _ ds))
        rw [hread, hnone]
        simp

/-- Without a closing brace behind its digits an escape is refused. -/
theorem readBraced_open (hds : ∀ d ∈ ds, isDigit 16 d = true) {rest : List Char}
    (hrest : Avoids (isDigit 16) rest) (hopen : rest.head? ≠ some '}') (v : UInt32)
    (hasDigits : Bool) :
    readBraced v hasDigits (ds ++ rest) = none := by
  induction ds generalizing v hasDigits with
  | nil =>
      rcases rest with _ | ⟨c, rest⟩
      · rfl
      have hc : c ≠ '}' := by simpa using hopen
      rw [List.nil_append, readBraced, if_neg hc, digit?_eq_none ((avoids_cons _ c rest).mp hrest)]
      rfl
  | cons c ds ih =>
      obtain ⟨hc, hds⟩ := List.forall_mem_cons.mp hds
      rcases readBraced_digit hc v hasDigits with ⟨w, -, hread⟩ | ⟨-, hread⟩
      · exact (hread _).trans (ih hds w true)
      · exact hread _

/-- Reading digit by digit agrees with the escape that is looked at as a whole. -/
theorem readBraced_eq_hexEscape? (cs : List Char) :
    readBraced 0 false cs = (hexEscape? ('{' :: cs)).map fun (d, n) => (d, ('{' :: cs).drop n) := by
  obtain ⟨run, rest, rfl, hrun, hrest⟩ := exists_run (isDigit 16) cs
  have hbrace : ∀ c ∈ run, decide (c ≠ '}') = true := fun c hc => by
    simpa using ne_rightBrace_of_isDigit (hrun c hc)
  by_cases hopen : rest.head? = some '}'
  · obtain ⟨more, rfl⟩ := List.head?_eq_some_iff.mp hopen
    have htake : (run ++ '}' :: more).takeWhile (· ≠ '}') = run :=
      takeWhile_append_of_avoids hbrace (by simp)
    rw [readBraced_closed hrun]
    simp only [hexEscape?, htake]
    by_cases hnil : run = []
    · simp [hnil]
    · have hall : run.all (isDigit 16) = true := List.all_eq_true.mpr hrun
      simp [hnil, hall, valueFrom, value, Function.comp_def]
  · rw [readBraced_open hrun hrest hopen]
    rcases rest with _ | ⟨e, rest⟩
    · have htake : (run ++ []).takeWhile (· ≠ '}') = run :=
        takeWhile_append_of_avoids hbrace (avoids_nil _)
      simp only [hexEscape?, htake]
      simp
    · have he : isDigit 16 e = false := (avoids_cons _ e rest).mp hrest
      have hmem : e ∈ (run ++ e :: rest).takeWhile (· ≠ '}') := by
        have hne : e ≠ '}' := by simpa using hopen
        rw [List.takeWhile_append_of_pos hbrace, List.takeWhile_cons_of_pos (by simpa using hne)]
        simp
      have hall : ((run ++ e :: rest).takeWhile (· ≠ '}')).all (isDigit 16) = false :=
        List.all_eq_false.mpr ⟨e, hmem, by simp [he]⟩
      simp only [hexEscape?, hall]
      simp

/-! ### The other escapes -/

/-- Up to three octal digits never leave 32 bits. -/
theorem readOctal_eq (n : Nat) (v : UInt32) (cs : List Char) (h : (v.toNat + 1) * 8 ^ n ≤ 2 ^ 32) :
    readOctal n v cs =
      (scalar? (valueFrom 8 v.toNat ((cs.take n).takeWhile (isDigit 8)))).map
        (·, cs.drop ((cs.take n).takeWhile (isDigit 8)).length) := by
  induction n generalizing v cs with
  | zero => simp [readOctal, valueFrom]
  | succ n ih =>
      rcases cs with _ | ⟨c, cs⟩
      · simp [readOctal, valueFrom]
      rw [List.take_succ_cons]
      by_cases hc : isDigit 8 c = true
      · obtain ⟨d, hd, hvalue⟩ := exists_digit? (by decide) hc
        have hlt := digitValue?_lt hc
        have hpow : (v.toNat * 8 + d.toNat + 1) * 8 ^ n ≤ (v.toNat + 1) * 8 ^ (n + 1) := by
          rw [Nat.pow_succ', ← Nat.mul_assoc]
          exact Nat.mul_le_mul_right _ (by omega)
        have hfits : v.toNat * 8 + d.toNat + 1 ≤ (v.toNat * 8 + d.toNat + 1) * 8 ^ n :=
          Nat.le_mul_of_pos_right _ (Nat.pow_pos (by decide))
        have hw : (v * 8 + d).toNat = v.toNat * 8 + d.toNat := @toNat_mul_add v d 8 (by
          show v.toNat * 8 + d.toNat < 2 ^ 32
          omega)
        rw [readOctal, hd, List.takeWhile_cons_of_pos hc, valueFrom_cons, ← hvalue, ← hw]
        exact ih _ cs (by rw [hw]; omega)
      · have hfalse := Bool.eq_false_iff.mpr hc
        rw [readOctal, digit?_eq_none hfalse, List.takeWhile_cons_of_neg hc]
        rfl

/-- A pair of hexadecimal digits has room in a word. -/
theorem readPair_eq (h l : Char) (cs : List Char) :
    (do
      let high ← digit? 16 h
      let low ← digit? 16 l
      (scalar? (high * 16 + low).toNat).map (·, cs)) =
      if isDigit 16 h && isDigit 16 l then (scalar? (value 16 [h, l])).map (·, cs) else none := by
  rcases hh : isDigit 16 h with _ | _
  · rw [digit?_eq_none hh]
    rfl
  obtain ⟨high, hhigh, hhv⟩ := exists_digit? (Nat.le_refl 16) hh
  rcases hl : isDigit 16 l with _ | _
  · rw [hhigh, digit?_eq_none hl]
    rfl
  obtain ⟨low, hlow, hlv⟩ := exists_digit? (Nat.le_refl 16) hl
  have hhlt := digitValue?_lt hh
  have hllt := digitValue?_lt hl
  have hw : (high * 16 + low).toNat = high.toNat * 16 + low.toNat := @toNat_mul_add high low 16 (by
    show high.toNat * 16 + low.toNat < 2 ^ 32
    omega)
  have hvalue : value 16 [h, l] = high.toNat * 16 + low.toNat := by simp [value, hhv, hlv]
  rw [hhigh, hlow, hvalue, ← hw]
  rfl

theorem readHex_eq (cs : List Char) :
    readHex cs = (hexEscape? cs).map fun (d, n) => (d, cs.drop n) := by
  unfold readHex
  split
  · exact readBraced_eq_hexEscape? _
  · next h l cs hbrace =>
    have hpair : hexEscape? (h :: l :: cs) = if isDigit 16 h && isDigit 16 l then
        (scalar? (value 16 [h, l])).map (·, 2) else none := by
      rw [hexEscape?]
      exact hbrace
    rw [hpair, readPair_eq]
    split
    · simp [Function.comp_def]
    · rfl
  · next hbrace hshort =>
    rcases cs with _ | ⟨h, _ | ⟨l, cs⟩⟩
    · rfl
    · have hnone : hexEscape? [h] = none := by
        unfold hexEscape?
        split
        · next heq => exact absurd (List.cons.inj heq).1 (by rintro rfl; exact hbrace _ rfl)
        · next heq => cases heq
        · rfl
      rw [hnone]
      rfl
    · exact absurd rfl (hshort h l cs)

theorem scalar?_and (c : Char) : scalar? (c.toNat &&& 0x1f) = some (Char.ofNat (c.toNat % 32)) := by
  have hand : c.toNat &&& 0x1f = c.toNat % 32 := Nat.and_two_pow_sub_one_eq_mod c.toNat 5
  have hlt : c.toNat % 32 < 32 := Nat.mod_lt _ (by decide)
  have hvalid : (c.toNat % 32).isValidChar := .inl (by omega)
  rw [hand, scalar?, if_pos hvalid]

/-- Reading an escape character by character gives its character and what is behind the escape. -/
theorem readEscape_cons (c : Char) (cs : List Char) :
    readEscape (c :: cs) = (escape? c cs).map fun (d, n) => (d, cs.drop n) := by
  unfold readEscape escape?
  simp only
  rcases letterEscape? c with _ | d
  · simp only
    split
    · next hc =>
      obtain ⟨d, hd, hvalue⟩ := exists_digit? (by decide : 8 ≤ 16) hc
      have hlt := digitValue?_lt hc
      have hfirst (more : List Char) : value 8 (c :: more) = valueFrom 8 d.toNat more := by
        rw [hvalue, value, ← valueFrom, valueFrom_cons, Nat.zero_mul, Nat.zero_add]
      simp only [hd, octalEscape?, hfirst, Option.map_map]
      exact readOctal_eq 2 d cs (by omega)
    split
    · exact readHex_eq cs
    split
    · rcases cs with _ | ⟨d, ds⟩
      · rfl
      · simp [scalar?_and]
    · rfl
  · rfl

/-- Decoding is the loop that reads an escape behind each backslash. -/
theorem decode?_backslash (cs : List Char) :
    decode? ('\\' :: cs) = (readEscape cs).bind fun (c, rest) => (decode? rest).map (c :: ·) := by
  rcases cs with _ | ⟨d, ds⟩
  · rw [decode?.eq_def]
    rfl
  rw [readEscape_cons]
  rcases hescape : escape? d ds with _ | ⟨e, n⟩
  · rw [decode?.eq_def]
    simp [hescape]
  · rw [decode?_escape hescape]
    rfl

end Quoted

/-! ### The pattern of a character literal -/

namespace Lexeme

open Quoted

/-- The texts that the pattern of a character literal takes. -/
inductive CharacterLexeme : List Char → Prop
  | plain {c} : c ≠ '\\' → CharacterLexeme ['$', c]
  | octal {ds} : ds ≠ [] → ds.length ≤ 3 → (∀ d ∈ ds, isDigit 8 d = true) →
      CharacterLexeme ('$' :: '\\' :: ds)
  | hexPair {h l} : isDigit 16 h = true → isDigit 16 l = true →
      CharacterLexeme ['$', '\\', 'x', h, l]
  | hexBraces {ds} : ds ≠ [] → (∀ d ∈ ds, isDigit 16 d = true) →
      CharacterLexeme ('$' :: '\\' :: 'x' :: '{' :: (ds ++ ['}']))
  | control {c} : isControlName c = true → CharacterLexeme ['$', '\\', '^', c]
  | other {c} : isDigit 8 c = false → c ≠ 'x' → c ≠ '^' → CharacterLexeme ['$', '\\', c]

variable {c : Char} {cs ds t lexeme : List Char} {n : Nat}

/-- The lexer takes a text of the pattern as far as it can. -/
theorem CharacterForm.characterLexeme (h : CharacterForm cs n) :
    CharacterLexeme ('$' :: cs.take n) := by
  cases h with
  | plain hc => exact .plain hc
  | @octal d ds rest hd hds hlength _ =>
      rw [List.take_succ_cons, List.take_succ_cons, List.take_left]
      exact .octal (List.cons_ne_nil d ds) (by simp; omega) (List.forall_mem_cons.mpr ⟨hd, hds⟩)
  | hexPair hh hl => exact .hexPair hh hl
  | @hexBraces ds rest hne hds =>
      have htake : (ds ++ '}' :: rest).take (ds.length + 1) = ds ++ ['}'] := by
        rw [List.append_cons, List.take_left' (by simp)]
      rw [List.take_succ_cons, List.take_succ_cons, List.take_succ_cons, htake]
      exact .hexBraces hne hds
  | control hc => exact .control hc
  | other hd hx hcaret => exact .other hd hx hcaret

/-- The pattern of a character literal takes all of the text. -/
theorem characterLexeme_iff : CharacterLexeme ('$' :: t) ↔ characterLength? t = some t.length := by
  rw [characterLength?_eq_some]
  constructor
  · intro h
    cases h with
    | plain hc => exact .plain hc
    | @octal ds hne hlength hds =>
        rcases ds with _ | ⟨d, ds⟩
        · exact absurd rfl hne
        obtain ⟨hd, hds⟩ := List.forall_mem_cons.mp hds
        have hform :=
          @CharacterForm.octal d ds [] hd hds (Nat.le_of_succ_le_succ hlength) fun _ => avoids_nil _
        rwa [List.append_nil] at hform
    | hexPair hh hl => exact .hexPair hh hl
    | @hexBraces ds hne hds =>
        have hform := @CharacterForm.hexBraces ds [] hne hds
        rwa [show ds.length + 4 = ('\\' :: 'x' :: '{' :: (ds ++ ['}'])).length by simp] at hform
    | control hc => exact .control hc
    | other hd hx hcaret => exact .other hd hx hcaret
  · intro h
    have hlexeme := h.characterLexeme
    rwa [List.take_length] at hlexeme

/-! ### What the decoder makes of the pattern -/

theorem scalar?_eq_some_iff : scalar? n = some c ↔ n.isValidChar ∧ c.toNat = n := by
  rw [scalar?]
  constructor
  · intro h
    split at h
    · next hvalid =>
      obtain rfl := Option.some.inj h
      exact ⟨hvalid, by rw [Char.ofNat, dif_pos hvalid]; rfl⟩
    · cases h
  · rintro ⟨hvalid, rfl⟩
    rw [if_pos hvalid, Char.ofNat_toNat]

/-- The literal has its code point in braces, and that is none of a character. -/
def NoScalar (lexeme : List Char) : Prop :=
  ∃ digits, lexeme = '$' :: '\\' :: 'x' :: '{' :: (digits ++ ['}']) ∧
    ¬(Numeral.value 16 digits).isValidChar

theorem scalar?_of_lt (h : n < 0xd800) : scalar? n = some (Char.ofNat n) := by
  have hvalid : n.isValidChar := .inl h
  rw [scalar?, if_pos hvalid]

theorem hexValue_eq (hds : ∀ d ∈ ds, isDigit 16 d = true) : Numeral.value 16 ds = value 16 ds :=
  (Numeral.radix_value_eq 16 fun d hd => isAlphanum_of_isDigit (hds d hd)).symm

/-- Behind a backslash the pattern takes escapes, and besides them only code points that are none of
a character. -/
theorem CharacterLexeme.escape_or_noScalar (h : CharacterLexeme ('$' :: '\\' :: t)) :
    (∃ c, Escape ('\\' :: t) c) ∨ ∃ ds, t = 'x' :: '{' :: (ds ++ ['}']) ∧
      (∀ d ∈ ds, isDigit 16 d = true) ∧ ¬(Numeral.value 16 ds).isValidChar := by
  cases h with
  | plain hc => exact absurd rfl hc
  | octal hne hlength hds =>
      rcases t with _ | ⟨d, ds⟩
      · exact absurd rfl hne
      have hlt : value 8 (d :: ds) < 8 ^ 3 :=
        Nat.lt_of_lt_of_le (value_lt hds) (Nat.pow_le_pow_right (by decide) hlength)
      obtain ⟨hd, hds⟩ := List.forall_mem_cons.mp hds
      exact .inl ⟨_, .octal hd hds (Nat.le_of_succ_le_succ hlength) (scalar?_of_lt (by omega))⟩
  | @hexPair h l hh hl =>
      have hlt : value 16 [h, l] < 16 ^ 2 := value_lt (by simp [hh, hl])
      exact .inl ⟨_, .hexPair hh hl (scalar?_of_lt (by omega))⟩
  | @hexBraces ds hne hds =>
      by_cases hvalid : (Numeral.value 16 ds).isValidChar
      · have hscalar : scalar? (value 16 ds) = some (Char.ofNat (value 16 ds)) := by
          rw [scalar?, if_pos (hexValue_eq hds ▸ hvalid)]
        exact .inl ⟨_, .hexBraces hne hds hscalar⟩
      · exact .inr ⟨ds, rfl, hds, hvalid⟩
  | control => exact .inl ⟨_, .control _⟩
  | @other c hd hx hcaret =>
      rcases hletter : letterEscape? c with _ | e
      · exact .inl ⟨c, .other hletter hd hx hcaret⟩
      · exact .inl ⟨e, .letter hletter⟩

theorem hexBraces_inv (h : Escape ('\\' :: 'x' :: '{' :: (ds ++ ['}'])) c) :
    (Numeral.value 16 ds).isValidChar ∧ c.toNat = Numeral.value 16 ds := by
  generalize hu : ds ++ ['}'] = u at h
  cases h with
  | octal hd => cases hd
  | hexPair hh => cases hh
  | hexBraces _ hds hscalar =>
      obtain ⟨rfl, -⟩ := List.append_inj' hu rfl
      rw [hexValue_eq hds]
      exact scalar?_eq_some_iff.mp hscalar

theorem readEscape_of_escape (h : Escape ('\\' :: t) c) : readEscape t = some (c, []) := by
  rcases t with _ | ⟨d, ds⟩
  · cases h
  simp [readEscape_cons, h.escape?]

theorem readEscape_noScalar (hds : ∀ d ∈ ds, isDigit 16 d = true)
    (h : ¬(Numeral.value 16 ds).isValidChar) : readEscape ('x' :: '{' :: (ds ++ ['}'])) = none := by
  have hscalar : scalar? (valueFrom 16 0 ds) = none := by
    rw [hexValue_eq hds] at h
    exact if_neg h
  have hread := readBraced_closed hds 0 false []
  have hzero : (0 : UInt32).toNat = 0 := rfl
  rw [hzero, hscalar] at hread
  exact hread.trans (by simp)

/-- The decoder reads one character and comes to the end of the literal, or there is no
character. -/
theorem CharacterLexeme.decode?_cases (h : CharacterLexeme lexeme) :
    (∃ c, decode? (lexeme.drop 1) = some [c] ∧ ¬NoScalar lexeme ∧
        ∀ cs, lexeme = '$' :: '\\' :: cs → readEscape cs = some (c, [])) ∨
      decode? (lexeme.drop 1) = none ∧ NoScalar lexeme ∧
        ∀ cs, lexeme = '$' :: '\\' :: cs → readEscape cs = none := by
  by_cases hplain : ∃ c, c ≠ '\\' ∧ lexeme = ['$', c]
  · obtain ⟨c, hc, rfl⟩ := hplain
    refine .inl ⟨c, ?_, ?_, ?_⟩
    · rw [List.drop_one, List.tail_cons, decode?_plain hc, decode?]
      rfl
    · rintro ⟨digits, heq, -⟩
      simp at heq
    · rintro cs heq
      exact absurd (List.cons.inj (List.cons.inj heq).2).1 hc
  obtain ⟨t, rfl⟩ : ∃ t, lexeme = '$' :: '\\' :: t := by
    cases h with
    | plain hc => exact absurd ⟨_, hc, rfl⟩ hplain
    | _ => exact ⟨_, rfl⟩
  rcases h.escape_or_noScalar with ⟨c, hescape⟩ | ⟨ds, rfl, hds, hvalue⟩
  · refine .inl ⟨c, decode?_eq_singleton.mpr hescape, ?_, ?_⟩
    · rintro ⟨digits, heq, hvalue⟩
      rw [List.cons_inj_right, List.cons_inj_right] at heq
      exact hvalue (hexBraces_inv (heq ▸ hescape)).1
    · rintro cs heq
      rw [List.cons_inj_right, List.cons_inj_right] at heq
      exact heq ▸ readEscape_of_escape hescape
  · have hread := readEscape_noScalar hds hvalue
    refine .inr ⟨?_, ⟨ds, rfl, hvalue⟩, ?_⟩
    · rw [List.drop_one, List.tail_cons, decode?_backslash, hread, Option.bind_none]
    · rintro cs heq
      rw [List.cons_inj_right, List.cons_inj_right] at heq
      rw [← heq, hread]

theorem characterToken?_of_decode? (h : decode? (lexeme.drop 1) = some [c]) :
    characterToken? lexeme = some (.char c) := by
  rw [characterToken?, h]

theorem characterToken?_eq_some_iff {u : Token} :
    characterToken? lexeme = some u ↔ ∃ c, u = .char c ∧ decode? (lexeme.drop 1) = some [c] := by
  constructor
  · intro h
    unfold characterToken? at h
    split at h
    · next c hdecode => exact ⟨c, (Option.some.inj h).symm, hdecode⟩
    · cases h
  · rintro ⟨c, rfl, hdecode⟩
    exact characterToken?_of_decode? hdecode

/-- What the pattern takes and what the decoder reads is the same: the whole literal, and one
character, unless a code point in braces is none of a character. -/
theorem character_lexeme_decodes (h : CharacterLexeme lexeme) :
    characterLength? (lexeme.drop 1) = some (lexeme.drop 1).length ∧
      (characterToken? lexeme = none ↔ NoScalar lexeme) ∧
      (∀ text, decode? (lexeme.drop 1) = some text →
        ∃ c, text = [c] ∧ characterToken? lexeme = some (.char c)) ∧
      (∀ c digits, lexeme = '$' :: '\\' :: 'x' :: '{' :: (digits ++ ['}']) →
        characterToken? lexeme = some (.char c) → c.toNat = Numeral.value 16 digits) ∧
      ∀ cs c rest, lexeme = '$' :: '\\' :: cs →
        (readEscape cs = some (c, rest) ↔ rest = [] ∧ characterToken? lexeme = some (.char c)) := by
  obtain ⟨t, rfl⟩ : ∃ t, lexeme = '$' :: t := by
    cases h <;> exact ⟨_, rfl⟩
  refine ⟨characterLexeme_iff.mp h, ?_, ?_, ?_, ?_⟩
  · rcases h.decode?_cases with ⟨c, hdecode, hscalar, -⟩ | ⟨hdecode, hscalar, -⟩
    · simp [characterToken?_of_decode? hdecode, hscalar]
    · rw [characterToken?, hdecode]
      exact iff_of_true rfl hscalar
  · intro text htext
    rcases h.decode?_cases with ⟨c, hdecode, -⟩ | ⟨hdecode, -⟩
    · exact ⟨c, Option.some.inj (htext.symm.trans hdecode), characterToken?_of_decode? hdecode⟩
    · rw [hdecode] at htext
      cases htext
  · intro c digits heq htoken
    obtain ⟨_, hc, hdecode⟩ := characterToken?_eq_some_iff.mp htoken
    obtain rfl := Token.char.inj hc
    rw [heq] at hdecode
    exact (hexBraces_inv (decode?_eq_singleton.mp hdecode)).2
  · intro cs c rest heq
    rcases h.decode?_cases with ⟨d, hdecode, -, hlast⟩ | ⟨hdecode, -, hnone⟩
    · have htoken := characterToken?_of_decode? hdecode
      simp [hlast cs heq, htoken, and_comm, eq_comm]
    · have htoken : characterToken? ('$' :: t) = none := by rw [characterToken?, hdecode]
      simp [hnone cs heq, htoken]

/-- A code point with more digits than a word has room for. -/
def paddedLetter : List Char :=
  '$' :: '\\' :: 'x' :: '{' :: (List.replicate 20 '0' ++ ['4', '1'] ++ ['}'])

theorem character_lexeme_decodes_padded :
    CharacterLexeme paddedLetter ∧ ¬NoScalar paddedLetter ∧
      characterToken? paddedLetter = some (.char 'A') := by
  have hlexeme : CharacterLexeme paddedLetter :=
    .hexBraces (List.append_ne_nil_of_right_ne_nil _ (List.cons_ne_nil _ _))
      (List.all_eq_true.mp rfl)
  have htoken : characterToken? paddedLetter = some (.char 'A') := by decide +kernel
  have hnone : ¬NoScalar paddedLetter := fun hscalar => by
    have heq := (character_lexeme_decodes hlexeme).2.1.mpr hscalar
    rw [htoken] at heq
    cases heq
  exact ⟨hlexeme, hnone, htoken⟩

end Lexeme

end ErlangFragment
