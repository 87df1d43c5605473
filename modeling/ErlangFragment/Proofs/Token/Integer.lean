import ErlangFragment.Proofs.Token.Lexed
import Mathlib.Data.Nat.Digits.Defs

/-! Integers of any size. An integer stands for the number that its digits denote in its base, and
what is kept of it is written so that it stands for the same number again. -/

namespace ErlangFragment

open Lexeme Lexer

open Radix (Digits digits_take)

/-! ### What integers are written with -/

namespace Numeral

/-- The text of an integer, with its base if that is written, and with its digits. -/
inductive Form : List Char → Option (List Char) → List Char → Prop
  | decimal {ds} : Digits Char.isDigit ds → Form ds none ds
  /-- An underscore without a digit behind it is taken along. -/
  | hanging {ds} : Digits Char.isDigit ds → Form (ds ++ ['_']) none ds
  | based {base ds} : base ≠ [] → (∀ c ∈ base, c.isDigit = true) → Digits Char.isAlphanum ds →
      Form (base ++ '#' :: ds) (some base) ds

/-- What a character counts as a digit. Letters count from ten, in either case. -/
def digit (c : Char) : Nat := if c.isDigit then c.toNat - 48 else c.toLower.toNat - 87

/-- The number that the digits denote, without the underscores between them. -/
def value (base : Nat) (digits : List Char) : Nat :=
  Nat.ofDigits base ((withoutUnderscores digits).map digit).reverse

/-- The base of a numeral, which is ten without a prefix. -/
def radix : Option (List Char) → Nat
  | none => 10
  | some base => value 10 base

/-- There is a base, and it is none from 2 through 36 or has not all of the digits. -/
def Refused (base? : Option (List Char)) (digits : List Char) : Prop :=
  ∃ base, base? = some base ∧
    (value 10 base < 2 ∨ 36 < value 10 base ∨ ∃ d ∈ digits, d ≠ '_' ∧ value 10 base ≤ digit d)

/-- The literal stands for the number, as a small one if it can. -/
inductive Keeps (v : Nat) : IntegerLiteral → Prop
  | small : v ≤ 2 ^ 63 - 1 → Keeps v (.small v)
  | big {text : String} {base? digits} : 2 ^ 63 - 1 < v → '_' ∉ text.toList →
      Form text.toList base? digits → value (radix base?) digits = v →
      Spells text.toList (.integer (.big text)) → Keeps v (.big text)

section

variable {p : Char → Bool} {c : Char} {cs : List Char}

/-! ### Values -/

theorem digitValue?_eq (h : c.isAlphanum = true) : Radix.digitValue? c = some (digit c) := by
  have hclass : c.isUpper = true ∨ c.isLower = true ∨ c.isDigit = true := by
    rw [← or_assoc, ← Bool.or_eq_true, ← Bool.or_eq_true]
    exact h
  have hlt : c.toNat < 123 := by
    rw [isUpper_iff, isLower_iff, isDigit_iff] at hclass
    omega
  have hall : ∀ n < 123, (Char.ofNat n).isAlphanum = true →
      Radix.digitValue? (Char.ofNat n) = some (digit (Char.ofNat n)) := by decide
  simpa [h] using hall c.toNat hlt

theorem isDigit_eq_false_iff {base : Nat} (h : c.isAlphanum = true) :
    Radix.isDigit base c = false ↔ base ≤ digit c := by
  simp [Radix.isDigit, digitValue?_eq h]

theorem value_withoutUnderscores (base : Nat) (cs : List Char) :
    value base (withoutUnderscores cs) = value base cs := by
  simp [value, withoutUnderscores]

/-- The value that is computed for a numeral is the one that its digits denote. -/
theorem radix_value_eq (base : Nat) (h : ∀ c ∈ cs, c.isAlphanum = true) :
    Radix.value base cs = value base cs := by
  have hplain := withoutUnderscores_of_forall fun c hc => ne_of_isAlphanum (h c hc) (by decide)
  rw [value, hplain]
  clear hplain
  induction cs using List.reverseRecOn with
  | nil => rfl
  | append_singleton cs c ih =>
      have hc := digitValue?_eq (h c (by simp))
      rw [Radix.value_concat, ih fun d hd => h d (List.mem_append_left _ hd), hc, List.map_append,
        List.reverse_append]
      simp [Nat.ofDigits_cons, Nat.mul_comm, Nat.add_comm]

theorem isAlphanum_of_isDecimal (h : c.isDigit = true) : c.isAlphanum = true := by
  simp [Char.isAlphanum, h]

theorem isAlphanum_of_mem (h : ∀ c ∈ cs, p c = true ∨ c = '_')
    (hp : ∀ c, p c = true → c.isAlphanum = true) :
    ∀ c ∈ withoutUnderscores cs, c.isAlphanum = true := by
  intro c hc
  obtain ⟨hmem, hne⟩ := List.mem_filter.mp hc
  exact hp c ((h c hmem).resolve_right (by simpa using hne))

end

/-! ### Literals -/

section

variable {text base cs ds : List Char} {base? : Option (List Char)} {l : IntegerLiteral} {v : Nat}

/-- The literal with these digits in this base, if there is one. -/
def literal? : Option (List Char) → List Char → Option IntegerLiteral
  | none, digits => some (.ofDecimal (withoutUnderscores digits))
  | some base, digits => IntegerLiteral.ofBased? base (withoutUnderscores digits)

theorem Keeps.of_written (hv : 2 ^ 63 - 1 < v) (hform : Form text base? ds) (hunder : '_' ∉ text)
    (hvalue : value (radix base?) ds = v)
    (hwritten : (IntegerLiteral.big (String.ofList text)).Written) :
    Keeps v (.big (String.ofList text)) := by
  have hlex := (standsBefore_integer hwritten (avoids_nil _) fun _ => endsDecimal_nil).lex
  have htoList := String.toList_ofList (l := text)
  refine .big hv (by rwa [htoList]) (by rwa [htoList]) hvalue ?_
  rw [htoList]
  exact hlex

/-- A decimal literal keeps the value, and is written so that it is read again. -/
theorem keeps_ofDecimal (hcs : ∀ c ∈ cs, c.isDigit = true) :
    Keeps (value 10 cs) (.ofDecimal cs) := by
  have hvalue := radix_value_eq 10 fun c hc => isAlphanum_of_isDecimal (hcs c hc)
  have hwritten := IntegerLiteral.Written.decimal hcs
  by_cases hsmall : value 10 cs < IntegerLiteral.smallLimit
  · have hl : IntegerLiteral.ofDecimal cs = .small (value 10 cs) := by
      simp [IntegerLiteral.ofDecimal, hvalue, hsmall]
    rw [hl]
    exact .small (Nat.le_pred_of_lt hsmall)
  · have hl : IntegerLiteral.ofDecimal cs = .big (String.ofList (cs.dropWhile (· = '0'))) := by
      simp [IntegerLiteral.ofDecimal, hvalue, hsmall]
    -- Without the zeros in front the digits denote the same number, so there are some left.
    have hdigits : ∀ c ∈ cs.dropWhile (· = '0'), c.isDigit = true :=
      fun c hc => hcs c ((List.dropWhile_suffix _).subset hc)
    have hsame : value 10 (cs.dropWhile (· = '0')) = value 10 cs := by
      rw [← hvalue, ← radix_value_eq 10 fun c hc => isAlphanum_of_isDecimal (hdigits c hc)]
      exact value_dropWhile_zero 10 cs
    have hne : cs.dropWhile (· = '0') ≠ [] := by
      intro hnil
      rw [hnil] at hsame
      exact hsmall (by rw [← hsame]; decide)
    rw [hl] at hwritten ⊢
    refine .of_written ?_ (.decimal (.of_forall hne hdigits)) ?_ hsame hwritten
    · exact Nat.lt_of_lt_of_le (by decide) (Nat.not_lt.mp hsmall)
    · exact fun h => ne_underscore_of_isDigit (hdigits _ h) rfl

/-- A literal in a base is accepted if the base is known and all digits are below it. -/
theorem ofBased?_eq_some (hbase : ∀ c ∈ base, c.isDigit = true)
    (hcs : ∀ c ∈ cs, c.isAlphanum = true) :
    IntegerLiteral.ofBased? base cs = some l ↔
      ((2 ≤ value 10 base ∧ value 10 base ≤ 36) ∧ ∀ c ∈ cs, digit c < value 10 base) ∧
        l = if value (value 10 base) cs < IntegerLiteral.smallLimit
          then .small (value (value 10 base) cs)
          else .big (String.ofList (Radix.decimal (value 10 base) ++ '#' :: cs)) := by
  have hb := radix_value_eq 10 fun c hc => isAlphanum_of_isDecimal (hbase c hc)
  have hv := radix_value_eq (value 10 base) hcs
  have hall : cs.all (Radix.isDigit (value 10 base)) = true ↔
      ∀ c ∈ cs, digit c < value 10 base := by
    simp only [List.all_eq_true]
    refine forall₂_congr fun c hc => ?_
    rw [← not_iff_not, Bool.not_eq_true, isDigit_eq_false_iff (hcs c hc), Nat.not_lt]
  simp only [IntegerLiteral.ofBased?, hb, hv, Bool.and_eq_true, decide_eq_true_eq, hall]
  split
  · next h =>
    rw [and_iff_right h]
    split <;> simp [eq_comm]
  · next h =>
    constructor
    · intro hl
      cases hl
    · exact fun hl => absurd hl.1 h

/-- A literal in a base keeps the value too. -/
theorem keeps_ofBased? (hne : cs ≠ []) (hbase : ∀ c ∈ base, c.isDigit = true)
    (hcs : ∀ c ∈ cs, c.isAlphanum = true) (hl : IntegerLiteral.ofBased? base cs = some l) :
    Keeps (value (value 10 base) cs) l := by
  have hwritten := IntegerLiteral.Written.based hne hl
  obtain ⟨-, rfl⟩ := (ofBased?_eq_some hbase hcs).mp hl
  split at hwritten
  · next hsmall =>
    rw [if_pos hsmall]
    exact .small (Nat.le_pred_of_lt hsmall)
  · next hsmall =>
    have hdecimal : ∀ c ∈ Radix.decimal (value 10 base), c.isDigit = true :=
      fun _ => Radix.isDigit_of_mem_decimal
    have hradix : value 10 (Radix.decimal (value 10 base)) = value 10 base := by
      rw [← radix_value_eq 10 fun c hc => isAlphanum_of_isDecimal (hdecimal c hc),
        Radix.value_decimal]
    rw [if_neg hsmall]
    refine .of_written ?_ (.based (Radix.decimal_ne_nil _) hdecimal (.of_forall hne hcs)) ?_
      ?_ hwritten
    · exact Nat.lt_of_lt_of_le (by decide) (Nat.not_lt.mp hsmall)
    · simp only [List.mem_append, List.mem_cons, not_or]
      exact ⟨fun h => ne_underscore_of_isDigit (hdecimal _ h) rfl, by decide,
        fun h => ne_of_isAlphanum (hcs _ h) (by decide) rfl⟩
    · rw [radix, hradix]

end

/-! ### Forms -/

section

variable {text cs ds : List Char} {base? : Option (List Char)} {c : Char} {n : Nat}
  {l : IntegerLiteral}

/-- The kind of lexeme that the text of an integer is. -/
def kind : Option (List Char) → LexemeKind
  | none => .decimal
  | some _ => .based

theorem Form.isAlphanum (h : Form text base? ds) :
    ∀ c ∈ withoutUnderscores ds, c.isAlphanum = true := by
  cases h with
  | decimal h | hanging h => exact isAlphanum_of_mem h.mem fun _ => isAlphanum_of_isDecimal
  | based _ _ h => exact isAlphanum_of_mem h.mem fun _ => id

theorem Form.ne_nil (h : Form text base? ds) : text ≠ [] := by
  cases h with
  | decimal h =>
      obtain ⟨d, ds, rfl, -⟩ := h.exists_cons
      exact List.cons_ne_nil d ds
  | hanging | based => simp

theorem Form.forall_isNumberChar (h : Form text base? ds) : ∀ c ∈ text, isNumberChar c = true := by
  have hdigits {p : Char → Bool} (hp : ∀ c, p c = true → c.isAlphanum = true) {ds : List Char}
      (h : Digits p ds) : ∀ c ∈ ds, isNumberChar c = true := by
    intro c hc
    rcases h.mem c hc with hpc | rfl
    · simp [isNumberChar, hp c hpc]
    · rfl
  cases h with
  | decimal h => exact hdigits (fun _ => isAlphanum_of_isDecimal) h
  | hanging h =>
      refine List.forall_mem_append.mpr ⟨hdigits (fun _ => isAlphanum_of_isDecimal) h, ?_⟩
      exact List.forall_mem_singleton.mpr rfl
  | @based base ds _ hbase h =>
      have hbehind : ∀ c ∈ '#' :: ds, isNumberChar c = true :=
        List.forall_mem_cons.mpr ⟨rfl, hdigits (fun _ => id) h⟩
      refine List.forall_mem_append.mpr ⟨fun c hc => ?_, hbehind⟩
      simp [isNumberChar, isAlphanum_of_isDecimal (hbase c hc)]

theorem withoutUnderscores_ne_nil {p : Char → Bool} (hp : p '_' = false) (h : Digits p ds) :
    withoutUnderscores ds ≠ [] := by
  obtain ⟨d, ds, rfl, hd⟩ := h.exists_cons
  have hne : d ≠ '_' := by
    rintro rfl
    rw [hp] at hd
    cases hd
  simp [withoutUnderscores, hne]

/-- A numeral is refused for its base or for one of its digits, and for nothing else. -/
theorem literal?_eq_none (h : Form text base? ds) :
    literal? base? ds = none ↔ Refused base? ds := by
  have hds := h.isAlphanum
  cases h with
  | decimal | hanging => simp [literal?, Refused]
  | @based base ds _ hbase _ =>
      have hmem (d : Char) : d ∈ withoutUnderscores ds ↔ d ∈ ds ∧ d ≠ '_' := by
        simp [withoutUnderscores]
      rw [literal?, ← not_iff_not, ← Ne, Option.ne_none_iff_exists']
      simp only [ofBased?_eq_some hbase hds, exists_and_left, exists_eq, and_true, Refused,
        Option.some.injEq, exists_eq_left', not_or, not_exists, not_and, Nat.not_lt,
        Nat.not_le, hmem, and_imp, and_assoc]

theorem keeps_of_literal? (h : Form text base? ds) (hl : literal? base? ds = some l) :
    Keeps (value (radix base?) ds) l := by
  have hds := h.isAlphanum
  rw [← value_withoutUnderscores]
  cases h with
  | decimal h | hanging h =>
      obtain rfl := Option.some.inj hl
      refine keeps_ofDecimal fun c hc => ?_
      obtain ⟨hmem, hne⟩ := List.mem_filter.mp hc
      exact (h.mem c hmem).resolve_right (by simpa using hne)
  | based _ hbase h => exact keeps_ofBased? (withoutUnderscores_ne_nil rfl h) hbase hds hl

theorem Form.token? (h : Form text base? ds) :
    Lexeme.token? (kind base?) text = (literal? base? ds).map .integer := by
  cases h with
  | decimal => rfl
  | hanging => simp [kind, Lexeme.token?, literal?, withoutUnderscores]
  | based _ hbase _ => exact basedToken?_append hbase

theorem basedLength?_eq_none (h : '#' ∉ cs) : basedLength? cs = none := by
  refine Option.eq_none_iff_forall_not_mem.mpr fun n hn => ?_
  obtain ⟨d, es, hdrop, -⟩ := basedLength?_eq_some.mp hn
  exact h (List.mem_of_mem_drop (hdrop ▸ List.mem_cons_self))

theorem number_digits {rest : List Char} (h : Digits Char.isDigit (c :: cs))
    (hrest : rest = [] ∨ rest = ['_']) :
    number (cs ++ rest) = (.decimal, (cs ++ rest).length) := by
  have hhash : '#' ∉ cs ++ rest := by
    intro hmem
    rcases List.mem_append.mp hmem with hmem | hmem
    · simpa using h.mem _ (List.mem_cons_of_mem c hmem)
    · rcases hrest with rfl | rfl <;> simp at hmem
  have hstops : Radix.Stops Char.isDigit rest := by
    rcases hrest with rfl | rfl
    · exact .of_avoids (avoids_nil _) (by simp)
    · exact ⟨(avoids_cons _ _ _).mpr rfl, by simp⟩
  rw [number_eq, basedLength?_eq_none hhash, h.digitsLength hstops, List.drop_left]
  rcases hrest with rfl | rfl <;> simp [decimalOrFloat]

/-- The text of an integer is one lexeme. -/
theorem Form.longest? (h : Form (c :: cs) base? ds) :
    c.isDigit = true ∧ Lexeme.longest? c cs = some (kind base?, cs.length) := by
  have hlongest (hc : c.isDigit = true) (hnumber : number cs = (kind base?, cs.length)) :
      Lexeme.longest? c cs = some (kind base?, cs.length) := by
    have h : Lexeme.longest? c (cs ++ []) = _ := longest?_number hc (by rwa [List.append_nil])
    rwa [List.append_nil] at h
  generalize htext : c :: cs = text at h
  cases h with
  | decimal h =>
      subst htext
      obtain ⟨_, _, heq, hc⟩ := h.exists_cons
      obtain ⟨rfl, -⟩ := List.cons.inj heq
      have hnumber := number_digits h (.inl rfl)
      rw [List.append_nil] at hnumber
      exact ⟨hc, hlongest hc hnumber⟩
  | hanging h =>
      obtain ⟨d, ds, rfl, hc⟩ := h.exists_cons
      obtain ⟨rfl, rfl⟩ := List.cons.inj htext
      exact ⟨hc, hlongest hc (number_digits h (.inr rfl))⟩
  | @based base ds hne hbase h =>
      obtain ⟨b, base, rfl⟩ := List.exists_cons_of_ne_nil hne
      obtain ⟨d, ds, rfl, -⟩ := h.exists_cons
      obtain ⟨rfl, rfl⟩ := List.cons.inj htext
      have hc := hbase c List.mem_cons_self
      have hnumber :=
        number_based (fun e he => hbase e (List.mem_cons_of_mem c he)) h (avoids_nil _)
      rw [List.append_nil] at hnumber
      exact ⟨hc, hlongest hc hnumber⟩

theorem exists_form_of_based (hc : c.isDigit = true) (h : number cs = (.based, n)) :
    ∃ base ds, Form (c :: cs.take n) (some base) ds := by
  rw [number_eq] at h
  split at h
  · next k hbased =>
    obtain rfl : k = n := (Prod.mk.inj h).2
    obtain ⟨d, es, hdrop, hd, rfl⟩ := basedLength?_eq_some.mp hbased
    obtain ⟨run, rest, rfl, hrun, hrest⟩ := exists_run Char.isDigit cs
    rw [takeWhile_append_of_avoids hrun hrest] at hdrop ⊢
    rw [List.drop_left] at hdrop
    subst hdrop
    have htake : (run ++ '#' :: d :: es).take
        (run.length + 2 + Radix.digitsLength Char.isAlphanum es) =
        run ++ '#' :: d :: es.take (Radix.digitsLength Char.isAlphanum es) := by
      rw [Nat.add_assoc, List.take_length_add_append, Nat.add_comm 2]
      rfl
    rw [htake]
    have hbase : ∀ b ∈ c :: run, b.isDigit = true := List.forall_mem_cons.mpr ⟨hc, hrun⟩
    exact ⟨_, _, .based (List.cons_ne_nil c run) hbase (digits_take hd es)⟩
  · unfold decimalOrFloat at h
    repeat' split at h
    all_goals cases h

theorem exists_form_of_decimal (hc : c.isDigit = true) (h : number cs = (.decimal, n)) :
    ∃ ds, Form (c :: cs.take n) none ds := by
  rw [number_eq] at h
  split at h
  · cases h
  · rcases decimalOrFloat_decimal h with rfl | ⟨rfl, rest, hdrop⟩
    · exact ⟨_, .decimal (digits_take hc cs)⟩
    · rw [List.take_add, hdrop]
      exact ⟨_, .hanging (digits_take hc cs)⟩

/-- The lexemes of integers are texts of integers. -/
theorem exists_form {kind : LexemeKind} (h : Lexeme.longest? c cs = some (kind, n))
    (hkind : kind = .decimal ∨ kind = .based) :
    ∃ base? ds, kind = Numeral.kind base? ∧ Form (c :: cs.take n) base? ds := by
  rcases hkind with rfl | rfl
  · cases longest?_heads h with
    | number hc hnumber =>
      obtain ⟨ds, hform⟩ := exists_form_of_decimal hc hnumber
      exact ⟨none, ds, rfl, hform⟩
  · cases longest?_heads h with
    | number hc hnumber =>
      obtain ⟨base, ds, hform⟩ := exists_form_of_based hc hnumber
      exact ⟨some base, ds, rfl, hform⟩

/-- What is read at the text of an integer, whatever stands behind it. -/
theorem Form.next? (h : Form (c :: cs.take n) base? ds)
    (hlongest : Lexeme.longest? c cs = some (kind base?, n)) :
    Lexeme.next? c cs = (literal? base? ds).map fun l => (.integer l, n) := by
  rw [Lexeme.next?, hlongest]
  simp only [h.token?, Option.map_map]
  rfl

/-! ### Reading integers -/

theorem Form.spells_iff (h : Form text base? ds) :
    Spells text (.integer l) ↔ literal? base? ds = some l := by
  obtain ⟨c, cs, rfl⟩ := List.exists_cons_of_ne_nil h.ne_nil
  obtain ⟨hc, hlongest⟩ := h.longest?
  have hnext := Form.next? (n := cs.length) (by rwa [List.take_length]) hlongest
  have hpercent : c ≠ '%' := by
    rintro rfl
    cases hc
  rw [spells_iff_next? (isLayout_eq_false hc (by decide)) hpercent (by simp) (by simp), hnext]
  simp

theorem Form.lex_eq_error_iff (h : Form text base? ds) :
    lex (String.ofList text) = .error ⟨.malformedNumber, wholeSpan (String.ofList text)⟩ ↔
      literal? base? ds = none := by
  constructor
  · intro herror
    refine Option.eq_none_iff_forall_ne_some.mpr fun l hl => ?_
    have hspells := h.spells_iff.mpr hl
    rw [Spells, herror] at hspells
    cases hspells
  · intro hnone
    have hmem := h.forall_isNumberChar
    obtain ⟨c, cs, rfl⟩ := List.exists_cons_of_ne_nil h.ne_nil
    obtain ⟨hc, hlongest⟩ := h.longest?
    have hnext := Form.next? (n := cs.length) (by rwa [List.take_length]) hlongest
    rw [hnone] at hnext
    have hrun : cs.takeWhile isNumberChar = cs := by
      simpa using takeWhile_append_of_avoids (fun d hd => hmem d (List.mem_cons_of_mem c hd))
        (avoids_nil _)
    have hfault : faultAt c cs = (.malformedNumber, cs.length) := by
      have hne (q : Char) (hq : q.isDigit = false) : c ≠ q := by
        rintro rfl
        rw [hc] at hq
        cases hq
      simp [faultAt, hne '"' rfl, hne '\'' rfl, hne '$' rfl, hc, hrun]
    rw [lex, tokenize, String.toList_ofList,
      scan_fault (isLayout_eq_false hc (by decide)) hnext, hfault]
    simp [Except.map, spanOf, wholeSpan]

end

/-- The texts of integers are the lexemes that the lexer takes for integers. Such a text is refused
for its base or a digit, or its number is kept; and in front of other text it is read as it is
alone. -/
theorem lex_integer :
    (∀ {text base? ds}, Form text base? ds →
      (lex (String.ofList text) = .error ⟨.malformedNumber, wholeSpan (String.ofList text)⟩ ↔
        Refused base? ds) ∧
      (¬Refused base? ds → ∃ l, Spells text (.integer l) ∧ Keeps (value (radix base?) ds) l)) ∧
    ∀ {c cs kind n}, Lexeme.longest? c cs = some (kind, n) → kind = .decimal ∨ kind = .based →
      ∃ base? ds, Form (c :: cs.take n) base? ds ∧ (Lexeme.next? c cs = none ↔ Refused base? ds) ∧
        ∀ l, Lexeme.next? c cs = some (.integer l, n) ↔ Spells (c :: cs.take n) (.integer l) := by
  constructor
  · intro text base? ds h
    rw [h.lex_eq_error_iff, literal?_eq_none h]
    refine ⟨Iff.rfl, fun hrefused => ?_⟩
    rw [← literal?_eq_none h, ← Ne, Option.ne_none_iff_exists'] at hrefused
    obtain ⟨l, hl⟩ := hrefused
    exact ⟨l, h.spells_iff.mpr hl, keeps_of_literal? h hl⟩
  · intro c cs kind n hlongest hkind
    obtain ⟨base?, ds, rfl, h⟩ := exists_form hlongest hkind
    refine ⟨base?, ds, h, ?_, fun l => ?_⟩
    · rw [h.next? hlongest, Option.map_eq_none_iff, literal?_eq_none h]
    · rw [h.next? hlongest, h.spells_iff]
      simp

/-- Thirteen digits in base 36 are too many for a small literal. -/
theorem lex_integer_base36 :
    Form ('3' :: '6' :: '#' :: List.replicate 13 'z') (some ['3', '6']) (List.replicate 13 'z') ∧
      ¬Refused (some ['3', '6']) (List.replicate 13 'z') ∧
      (∃ l, Spells ('3' :: '6' :: '#' :: List.replicate 13 'z') (.integer l) ∧
        Keeps (36 ^ 13 - 1) l) ∧
      ∃ base? ds, Form ['7', '_'] base? ds ∧
      (Lexeme.next? '7' ['_', ')'] = none ↔ Refused base? ds) ∧
        ∀ l, Lexeme.next? '7' ['_', ')'] = some (.integer l, 1) ↔
        Spells ['7', '_'] (.integer l) := by
  have hform : Form ('3' :: '6' :: '#' :: List.replicate 13 'z') (some ['3', '6'])
      (List.replicate 13 'z') :=
    @Form.based ['3', '6'] _ (by decide)
      (List.forall_mem_cons.mpr ⟨rfl, List.forall_mem_singleton.mpr rfl⟩)
      (.of_forall (by simp) fun d hd => by rw [List.eq_of_mem_replicate hd]; decide)
  have hrefused : ¬Refused (some ['3', '6']) (List.replicate 13 'z') := by
    rw [← literal?_eq_none hform]
    decide +kernel
  have hvalue : value (radix (some ['3', '6'])) (List.replicate 13 'z') = 36 ^ 13 - 1 := by
    decide +kernel
  have hlongest : Lexeme.longest? '7' ['_', ')'] = some (.decimal, 1) := by decide +kernel
  obtain ⟨l, hspells, hkeeps⟩ := (lex_integer.1 hform).2 hrefused
  rw [hvalue] at hkeeps
  exact ⟨hform, hrefused, ⟨l, hspells, hkeeps⟩, lex_integer.2 hlongest (.inl rfl)⟩

end Numeral

end ErlangFragment
