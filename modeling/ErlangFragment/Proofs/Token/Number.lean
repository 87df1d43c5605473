import Mathlib.Data.List.DropRight
import ErlangFragment.Proofs.Token.Lexeme

/-! Reading back the text of numbers. -/

namespace ErlangFragment

open Lexeme Lexer

/-! ### Lexemes of numbers -/

/-- Nothing that would be taken for more of a decimal integer. -/
structure EndsDecimal (rest : List Char) : Prop where
  name : Avoids isNameChar rest
  fraction : ∀ d ds, rest = '.' :: d :: ds → d.isDigit = false
  base : ∀ d ds, rest = '#' :: d :: ds → d.isAlphanum = false

theorem endsDecimal_nil : EndsDecimal [] := ⟨avoids_nil _, by simp, by simp⟩

theorem stops_of_avoids_nameChar {p : Char → Bool} {rest : List Char} (hr : Avoids isNameChar rest)
    (hp : ∀ c, p c = true → isNameChar c = true) : Radix.Stops p rest := by
  refine Radix.Stops.of_avoids (hr.mono hp) fun h => ?_
  exact absurd (hr '_' h) (by decide)

/-- Digits alone are an integer, where nothing behind them goes on with the number. -/
theorem number_decimal {cs rest : List Char} (h : ∀ c ∈ cs, c.isDigit = true)
    (hr : EndsDecimal rest) :
    number (cs ++ rest) = (.decimal, cs.length) := by
  have hbase : (cs ++ rest).takeWhile Char.isDigit = cs :=
    takeWhile_append_of_avoids h (hr.name.mono fun _ => isNameChar_of_isDigit)
  have hwhole : Radix.digitsLength Char.isDigit (cs ++ rest) = cs.length :=
    Radix.digitsLength_append h (stops_of_avoids_nameChar hr.name fun _ => isNameChar_of_isDigit)
  simp only [number, hbase, hwhole, List.drop_left]
  rcases rest with _ | ⟨c, _ | ⟨d, ds⟩⟩
  · rfl
  · have hc : c ≠ '_' := by
      rintro rfl
      exact absurd ((avoids_cons _ _ _).mp hr.name) (by decide)
    simp [hc]
  · have hc : c ≠ '_' := by
      rintro rfl
      exact absurd ((avoids_cons _ _ _).mp hr.name) (by decide)
    by_cases hhash : c = '#'
    · subst hhash
      simp [hr.base d ds rfl]
    by_cases hpoint : c = '.'
    · subst hpoint
      simp [hr.fraction d ds rfl]
    · simp [hc, hhash, hpoint]

/-- Digits, a number sign and further digits are an integer in a base. -/
theorem number_based {cs ds rest : List Char} {d : Char} (h : ∀ c ∈ cs, c.isDigit = true)
    (hd : Radix.Digits Char.isAlphanum (d :: ds)) (hr : Avoids isNameChar rest) :
    number (cs ++ '#' :: d :: ds ++ rest) = (.based, (cs ++ '#' :: d :: ds).length) := by
  have hbase : (cs ++ '#' :: d :: ds ++ rest).takeWhile Char.isDigit = cs := by
    rw [List.append_assoc]
    exact takeWhile_append_of_avoids h (by simp [Char.isDigit])
  have hwhole : Radix.digitsLength Char.isAlphanum (ds ++ rest) = ds.length :=
    hd.digitsLength (stops_of_avoids_nameChar hr fun _ => isNameChar_of_isAlphanum)
  have hdrop : (cs ++ '#' :: d :: ds ++ rest).drop cs.length = '#' :: d :: (ds ++ rest) := by
    rw [List.append_assoc, List.drop_left]
    rfl
  have hdigit := hd.head
  simp only [number, hbase, hdrop, hdigit, hwhole, if_true, List.length_append, List.length_cons,
    Prod.mk.injEq, true_and]
  omega

theorem exponentLength_of_avoids {rest : List Char} (hr : Avoids isNameChar rest) :
    exponentLength rest = 0 := by
  cases rest with
  | nil => rfl
  | cons c rest =>
      have hc : ¬(c = 'e' ∨ c = 'E') := by
        rintro (rfl | rfl) <;> exact absurd ((avoids_cons _ _ _).mp hr) (by decide)
      simp [exponentLength, hc]

theorem exponentLength_signedDecimal (k : Int) {rest : List Char} (hr : Avoids isNameChar rest) :
    exponentLength ('e' :: (Radix.signedDecimal k ++ rest)) =
      (Radix.signedDecimal k).length + 1 := by
  have hrun : ∀ ds : List Char, (∀ c ∈ ds, c.isDigit = true) →
      (ds ++ rest).takeWhile Char.isDigit = ds :=
    fun ds hds => takeWhile_append_of_avoids hds (hr.mono fun _ => isNameChar_of_isDigit)
  cases k with
  | ofNat n =>
      rcases hn : Radix.decimal n with _ | ⟨c, cs⟩
      · exact absurd hn (Radix.decimal_ne_nil n)
      have hdigits : ∀ d ∈ c :: cs, d.isDigit = true := by
        intro d hd
        rw [← hn] at hd
        exact Radix.isDigit_of_mem_decimal hd
      have hc := hdigits c List.mem_cons_self
      have hsign : ¬(c = '+' ∨ c = '-') := by
        rintro (rfl | rfl) <;> exact absurd hc (by decide)
      have hcs := hrun cs fun d hd => hdigits d (List.mem_cons_of_mem c hd)
      simp [Radix.signedDecimal, hn, exponentLength, hsign, hc, hcs]
  | negSucc n =>
      have hdigits : ∀ d ∈ Radix.decimal (n + 1), d.isDigit = true :=
        fun d hd => Radix.isDigit_of_mem_decimal hd
      simp [Radix.signedDecimal, exponentLength, hrun _ hdigits, Radix.decimal_ne_nil]

/-- A point between digits makes a float, with the exponent behind it. -/
theorem number_float {ws fs ex rest : List Char} {f : Char} (hws : ∀ c ∈ ws, c.isDigit = true)
    (hfs : ∀ c ∈ f :: fs, c.isDigit = true) (hstops : Radix.Stops Char.isDigit (ex ++ rest))
    (hex : exponentLength (ex ++ rest) = ex.length) :
    number (ws ++ '.' :: f :: fs ++ ex ++ rest) =
      (.float, (ws ++ '.' :: f :: fs ++ ex).length) := by
  have htext : ws ++ '.' :: f :: fs ++ ex ++ rest =
      ws ++ '.' :: f :: (fs ++ (ex ++ rest)) := by simp
  have hbase : (ws ++ '.' :: f :: (fs ++ (ex ++ rest))).takeWhile Char.isDigit = ws :=
    takeWhile_append_of_avoids hws (by simp [Char.isDigit])
  have hwhole : Radix.digitsLength Char.isDigit (ws ++ '.' :: f :: (fs ++ (ex ++ rest))) =
      ws.length :=
    Radix.digitsLength_append hws (.of_avoids (by simp [Char.isDigit]) (by simp))
  have hfraction : Radix.digitsLength Char.isDigit (fs ++ (ex ++ rest)) = fs.length :=
    Radix.digitsLength_append (fun c hc => hfs c (List.mem_cons_of_mem f hc)) hstops
  have hf := hfs f List.mem_cons_self
  rw [htext]
  simp [number, hbase, hwhole, hfraction, hf, hex]
  omega

/-! ### Integers -/

theorem longest?_number {kind : LexemeKind} {c : Char} {cs rest : List Char} (hc : c.isDigit = true)
    (h : number (cs ++ rest) = (kind, cs.length)) :
    longest? c (cs ++ rest) = some (kind, cs.length) := by
  simp [longest?, isLower_eq_false_of_isDigit hc, isVariableStart_eq_false_of_isDigit hc, hc, h]

theorem withoutUnderscores_of_forall {cs : List Char} (h : ∀ c ∈ cs, c ≠ '_') :
    withoutUnderscores cs = cs :=
  List.filter_eq_self.mpr fun c hc => by simpa using h c hc

theorem ne_underscore_of_isDigit {c : Char} (h : c.isDigit = true) : c ≠ '_' := by
  rintro rfl
  exact absurd h (by decide)

/-- Integers as they are read from source text. -/
inductive IntegerLiteral.Written : IntegerLiteral → Prop
  | decimal {digits : List Char} : (∀ c ∈ digits, c.isDigit = true) → Written (ofDecimal digits)
  | based {base digits : List Char} {n : IntegerLiteral} : digits ≠ [] →
      ofBased? base digits = some n → Written n

/-- The literal is written with these digits. -/
structure IntegerLiteral.HasDigits (n : IntegerLiteral) (digits : List Char) : Prop where
  text : n.text = String.ofList digits
  ne_nil : digits ≠ []
  isDigit : ∀ c ∈ digits, c.isDigit = true
  value : IntegerLiteral.ofDecimal digits = n

/-- An integer is read again from the digits that it is written with. -/
theorem IntegerLiteral.HasDigits.standsBefore {n : IntegerLiteral} {digits rest : List Char}
    (h : n.HasDigits digits) (hr : EndsDecimal rest) : (Token.integer n).StandsBefore rest := by
  obtain ⟨htext, hne, hdigits, hvalue⟩ := h
  obtain ⟨c, cs, rfl⟩ := List.exists_cons_of_ne_nil hne
  have hc := hdigits c List.mem_cons_self
  have hcs := fun d hd => hdigits d (List.mem_cons_of_mem c hd)
  refine .of_next c cs (by simp [Token.text, htext]) (isLayout_eq_false hc (by decide)) ?_ (by simp)
    (by simp)
  refine next?_of_longest? .decimal (longest?_number hc (number_decimal hcs hr)) ?_
  rw [token?, withoutUnderscores_of_forall fun d hd =>
    ne_underscore_of_isDigit (hdigits d hd), hvalue]

theorem ofDecimal_decimal {n : Nat} (hn : n < IntegerLiteral.smallLimit) :
    IntegerLiteral.ofDecimal (Radix.decimal n) = .small n := by
  simp [IntegerLiteral.ofDecimal, Radix.value_decimal, hn]

theorem hasDigits_small {n : Nat} (hn : n < IntegerLiteral.smallLimit) :
    (IntegerLiteral.small n).HasDigits (Radix.decimal n) :=
  ⟨rfl, Radix.decimal_ne_nil n, fun _ => Radix.isDigit_of_mem_decimal, ofDecimal_decimal hn⟩

theorem standsBefore_small {n : Nat} (hn : n < IntegerLiteral.smallLimit) {rest : List Char}
    (hr : EndsDecimal rest) : (Token.integer (.small n)).StandsBefore rest :=
  (hasDigits_small hn).standsBefore hr

theorem value_dropWhile_zero (base : Nat) (digits : List Char) :
    Radix.value base (digits.dropWhile (· = '0')) = Radix.value base digits := by
  induction digits with
  | nil => rfl
  | cons c digits ih =>
      by_cases hc : c = '0'
      · subst hc
        have hzero : Radix.value base ('0' :: digits) = Radix.value base digits := by
          simp [Radix.value, show Radix.digitValue? '0' = some 0 from by decide]
        simp [ih, hzero]
      · simp [hc]

theorem hasDigits_ofDecimal {digits : List Char} (hdigits : ∀ c ∈ digits, c.isDigit = true) :
    ∃ ds, (IntegerLiteral.ofDecimal digits).HasDigits ds := by
  by_cases hsmall : Radix.value 10 digits < IntegerLiteral.smallLimit
  · have hlit : IntegerLiteral.ofDecimal digits = .small (Radix.value 10 digits) := by
      simp [IntegerLiteral.ofDecimal, hsmall]
    rw [hlit]
    exact ⟨_, hasDigits_small hsmall⟩
  · have hvalue := value_dropWhile_zero 10 digits
    have hlit : IntegerLiteral.ofDecimal digits =
        .big (String.ofList (digits.dropWhile (· = '0'))) := by
      simp [IntegerLiteral.ofDecimal, hsmall]
    rw [hlit]
    refine ⟨digits.dropWhile (· = '0'), rfl, ?_, ?_, ?_⟩
    · intro hnil
      rw [hnil] at hvalue
      exact hsmall (by rw [← hvalue]; decide)
    · exact fun c hc => hdigits c ((List.dropWhile_suffix _).subset hc)
    · rw [← hvalue] at hsmall
      simp [IntegerLiteral.ofDecimal, hsmall, List.dropWhile_idempotent _ digits]

theorem isAlphanum_of_isDigit {base : Nat} {c : Char} (h : Radix.isDigit base c = true) :
    c.isAlphanum = true := by
  have hclass : c.isAlphanum = (c.isUpper || c.isLower || c.isDigit) := rfl
  rw [hclass]
  by_cases hd : c.isDigit = true
  · simp [hd]
  by_cases hu : c.isUpper = true
  · simp [hu]
  by_cases hl : c.isLower = true
  · simp [hl]
  · simp [Radix.isDigit, Radix.digitValue?, hd, hu, hl] at h

theorem ne_of_isAlphanum {c d : Char} (hc : c.isAlphanum = true) (hd : d.isAlphanum = false) :
    c ≠ d := by
  rintro rfl
  rw [hc] at hd
  cases hd

/-- Underscores between the digits of a number with a base do not count. -/
theorem basedToken?_append {base digits : List Char} (hbase : ∀ c ∈ base, c.isDigit = true) :
    basedToken? (base ++ '#' :: digits) =
      (IntegerLiteral.ofBased? base (withoutUnderscores digits)).map .integer := by
  have hplain : withoutUnderscores (base ++ '#' :: digits) =
      base ++ '#' :: withoutUnderscores digits := by
    simpa [withoutUnderscores] using fun c hc => ne_underscore_of_isDigit (hbase c hc)
  have hhash : ∀ c ∈ base, decide (c ≠ '#') = true := by
    intro c hc
    rw [decide_eq_true_eq]
    rintro rfl
    exact absurd (hbase _ hc) (by decide)
  have htake : (base ++ '#' :: withoutUnderscores digits).takeWhile (· ≠ '#') = base :=
    takeWhile_append_of_avoids hhash (by simp)
  have hdrop : (base ++ '#' :: withoutUnderscores digits).dropWhile (· ≠ '#') =
      '#' :: withoutUnderscores digits := by
    rw [List.dropWhile_append_of_pos hhash]
    simp
  simp only [basedToken?, hplain, htake, hdrop, List.drop_one, List.tail_cons]

theorem standsBefore_based {b : Nat} {digits : List Char} {n : IntegerLiteral} (hne : digits ≠ [])
    (hdigits : ∀ c ∈ digits, c.isAlphanum = true)
    (htext : n.text = String.ofList (Radix.decimal b ++ '#' :: digits))
    (h : IntegerLiteral.ofBased? (Radix.decimal b) digits = some n) {rest : List Char}
    (hr : Avoids isNameChar rest) : (Token.integer n).StandsBefore rest := by
  obtain ⟨d, ds, rfl⟩ := List.exists_cons_of_ne_nil hne
  obtain ⟨c, cs, hcs⟩ := List.exists_cons_of_ne_nil (Radix.decimal_ne_nil b)
  have hdecimal : ∀ e ∈ c :: cs, e.isDigit = true := by
    intro e he
    rw [← hcs] at he
    exact Radix.isDigit_of_mem_decimal he
  have hc := hdecimal c List.mem_cons_self
  have hnumber := number_based (fun e he => hdecimal e (List.mem_cons_of_mem c he))
    (.of_forall (List.cons_ne_nil d ds) hdigits) hr
  refine .of_next c (cs ++ '#' :: d :: ds) (by simp [Token.text, htext, hcs])
    (isLayout_eq_false hc (by decide)) ?_ (by simp) (by simp)
  refine next?_of_longest? .based (longest?_number hc hnumber) ?_
  have hplain :=
    withoutUnderscores_of_forall fun e he => ne_of_isAlphanum (hdigits e he) (by decide)
  rw [token?, ← List.cons_append, ← hcs, basedToken?_append fun _ => Radix.isDigit_of_mem_decimal,
    hplain, h]
  rfl

/-- Whether the literal is written with decimal digits alone. -/
def IntegerLiteral.isDecimal : IntegerLiteral → Bool
  | small _ => true
  | big text => !text.toList.contains '#'

theorem isDecimal_ofDecimal {digits : List Char} (hdigits : ∀ c ∈ digits, c.isDigit = true) :
    (IntegerLiteral.ofDecimal digits).isDecimal = true := by
  have hmem : '#' ∉ digits.dropWhile (· = '0') := fun h =>
    absurd (hdigits _ (List.dropWhile_sublist _ |>.subset h)) (by decide)
  unfold IntegerLiteral.ofDecimal
  simp only
  split
  · rfl
  · simp [IntegerLiteral.isDecimal, hmem]

/-- A written integer has decimal digits, or digits behind its base. -/
theorem IntegerLiteral.Written.hasDigits {n : IntegerLiteral} (hn : n.Written)
    (hdecimal : n.isDecimal = true) :
    ∃ ds, n.HasDigits ds := by
  cases hn with
  | decimal hdigits => exact hasDigits_ofDecimal hdigits
  | based _ h =>
      unfold IntegerLiteral.ofBased? at h
      simp only at h
      split at h
      · split at h
        · next hsmall =>
          obtain rfl := Option.some.inj h
          exact ⟨_, hasDigits_small hsmall⟩
        · obtain rfl := Option.some.inj h
          simp [IntegerLiteral.isDecimal] at hdecimal
      · cases h

/-- Integers read back as themselves. A number with a base ends where any word does. -/
theorem standsBefore_integer {n : IntegerLiteral} (hn : n.Written) {rest : List Char}
    (hword : Avoids isNameChar rest) (hr : n.isDecimal = true → EndsDecimal rest) :
    (Token.integer n).StandsBefore rest := by
  by_cases hdecimal : n.isDecimal = true
  · obtain ⟨ds, hds⟩ := hn.hasDigits hdecimal
    exact hds.standsBefore (hr hdecimal)
  cases hn with
  | decimal hdigits => exact absurd (isDecimal_ofDecimal hdigits) hdecimal
  | @based base digits _ hne h =>
      have hbased := h
      unfold IntegerLiteral.ofBased? at h
      simp only at h
      split at h
      · next hb =>
        simp only [Bool.and_eq_true, decide_eq_true_eq, List.all_eq_true] at hb
        split at h
        · obtain rfl := Option.some.inj h
          exact absurd rfl hdecimal
        · obtain rfl := Option.some.inj h
          refine standsBefore_based (b := Radix.value 10 base) hne
            (fun c hc => isAlphanum_of_isDigit (hb.2 c hc)) rfl ?_ hword
          rw [← hbased]
          simp only [IntegerLiteral.ofBased?, Radix.value_decimal]
      · cases h

/-! ### Floats -/

/-- Digits, a point, more digits and possibly an exponent. -/
inductive FloatText : List Char → Prop
  | intro (ws fs ex : List Char) : ws ≠ [] → fs ≠ [] → (∀ c ∈ ws, c.isDigit = true) →
      (∀ c ∈ fs, c.isDigit = true) → (ex = [] ∨ ∃ k, ex = 'e' :: Radix.signedDecimal k) →
      FloatText (ws ++ '.' :: fs ++ ex)

theorem plain_floatText {digits : List Char} (hne : digits ≠ [])
    (hdigits : ∀ c ∈ digits, c.isDigit = true) (exponent : Int) :
    FloatText (Binary64.plain digits exponent) := by
  have hzero : ∀ n, ∀ c ∈ List.replicate n '0', c.isDigit = true := by
    intro n c hc
    rw [List.eq_of_mem_replicate hc]
    decide
  unfold Binary64.plain
  simp only
  split
  · have h := FloatText.intro (digits ++ List.replicate exponent.toNat '0') ['0'] [] (by simp [hne])
      (by simp) (fun c hc => (List.mem_append.mp hc).elim (hdigits c) (hzero _ c)) (hzero 1)
      (.inl rfl)
    simpa using h
  split
  · have hlt : ((digits.length : Int) + exponent).toNat < digits.length := by omega
    have h := FloatText.intro (digits.take ((digits.length : Int) + exponent).toNat)
      (digits.drop ((digits.length : Int) + exponent).toNat) [] (by simp [hne]; omega)
      (by simp [hlt])
      (fun c hc => hdigits c (List.mem_of_mem_take hc))
        (fun c hc => hdigits c (List.mem_of_mem_drop hc))
      (.inl rfl)
    simpa using h
  · have h := FloatText.intro ['0']
      (List.replicate (-((digits.length : Int) + exponent)).toNat '0' ++ digits) [] (by simp)
      (by simp [hne]) (hzero 1) (fun c hc => (List.mem_append.mp hc).elim (hzero _ c) (hdigits c))
      (.inl rfl)
    simpa using h

theorem scientific_floatText {digits : List Char} (hne : digits ≠ [])
    (hdigits : ∀ c ∈ digits, c.isDigit = true) (exponent : Int) :
    FloatText (Binary64.scientific true digits exponent) := by
  unfold Binary64.scientific
  rcases digits with _ | ⟨d, _ | ⟨e, ds⟩⟩
  · exact absurd rfl hne
  · exact .intro [d] ['0'] _ (by simp) (by simp) hdigits (by simp [Char.isDigit]) (.inr ⟨_, rfl⟩)
  · exact .intro [d] (e :: ds) _ (by simp) (by simp) (fun c hc => hdigits c (by simp_all))
      (fun c hc => hdigits c (List.mem_cons_of_mem d hc)) (.inr ⟨_, rfl⟩)

/-- A float that is not negative is written the way floats are read. -/
theorem write_floatText {x : Binary64} (hx : x.negative = false) :
    FloatText (x.write Binary64.sourceStyle) := by
  have hne := Radix.decimal_ne_nil (x.shortest .up).digits
  have hdigits : ∀ c ∈ Radix.decimal (x.shortest .up).digits, c.isDigit = true :=
    fun _ => Radix.isDigit_of_mem_decimal
  unfold Binary64.write
  simp only [hx, Bool.false_eq_true, if_false]
  split
  · exact plain_floatText hne hdigits _
  · exact scientific_floatText hne hdigits _

/-- The text of a float is read as one number through its end. -/
theorem number_floatText {c : Char} {cs rest : List Char} (h : FloatText (c :: cs))
    (hr : Avoids isNameChar rest) :
    c.isDigit = true ∧ number (cs ++ rest) = (.float, cs.length) := by
  generalize htext : c :: cs = text at h
  obtain ⟨ws, fs, ex, hws, hfs, hwsd, hfsd, hex⟩ := h
  obtain ⟨w, ws, rfl⟩ := List.exists_cons_of_ne_nil hws
  obtain ⟨f, fs, rfl⟩ := List.exists_cons_of_ne_nil hfs
  obtain ⟨rfl, rfl⟩ : c = w ∧ cs = ws ++ '.' :: f :: fs ++ ex := by simpa using htext
  refine ⟨hwsd c List.mem_cons_self, ?_⟩
  refine number_float (fun d hd => hwsd d (List.mem_cons_of_mem c hd)) hfsd ?_ ?_
  · rcases hex with rfl | ⟨k, rfl⟩
    · exact stops_of_avoids_nameChar hr fun _ => isNameChar_of_isDigit
    · exact .of_avoids (by simp [Char.isDigit]) (by simp)
  · rcases hex with rfl | ⟨k, rfl⟩
    · exact exponentLength_of_avoids hr
    · rw [List.cons_append, exponentLength_signedDecimal k hr, List.length_cons]

theorem FloatText.ne_underscore {cs : List Char} (h : FloatText cs) : ∀ c ∈ cs, c ≠ '_' := by
  obtain ⟨ws, fs, ex, -, -, hws, hfs, hex⟩ := h
  have hdecimal : ∀ n, ∀ c ∈ Radix.decimal n, c ≠ '_' :=
    fun n c hc => ne_underscore_of_isDigit (Radix.isDigit_of_mem_decimal hc)
  have hexponent : ∀ c ∈ ex, c ≠ '_' := by
    intro c hc
    rcases hex with rfl | ⟨n | n, rfl⟩
    · cases hc
    · rcases List.mem_cons.mp hc with rfl | hc
      · decide
      · exact hdecimal n c hc
    · rcases List.mem_cons.mp hc with rfl | hc
      · decide
      rcases List.mem_cons.mp hc with rfl | hc
      · decide
      · exact hdecimal (n + 1) c hc
  intro c hc
  simp only [List.mem_append, List.mem_cons] at hc
  rcases hc with (hc | rfl | hc) | hc
  · exact ne_underscore_of_isDigit (hws c hc)
  · decide
  · exact ne_underscore_of_isDigit (hfs c hc)
  · exact hexponent c hc

theorem FloatText.ne_nil {cs : List Char} (h : FloatText cs) : cs ≠ [] := by
  obtain ⟨ws, fs, ex, -⟩ := h
  simp

/-- A float without a sign whose text denotes it reads back as itself. -/
theorem standsBefore_float {x : Binary64} (hfinite : x.isFinite = true) (hx : x.negative = false)
    (hread : Binary64.read? x.text.toList = some x) {rest : List Char}
    (hr : Avoids isNameChar rest) :
    (Token.float x).StandsBefore rest := by
  have htext : x.text = String.ofList (x.write Binary64.sourceStyle) := by
    have hexp : x.exponent ≠ 2047 := by simpa [Binary64.isFinite] using hfinite
    simp [Binary64.text, Binary64.isNaN, Binary64.isInfinite, hexp]
  have hshape := write_floatText hx
  rw [htext, String.toList_ofList] at hread
  obtain ⟨c, cs, hcs⟩ := List.exists_cons_of_ne_nil hshape.ne_nil
  rw [hcs] at hread hshape
  obtain ⟨hc, hnumber⟩ := number_floatText hshape hr
  refine .of_next c cs (by simp [Token.text, htext, hcs]) (isLayout_eq_false hc (by decide))
    ?_ (by simp)
    (by simp)
  refine next?_of_longest? .float (longest?_number hc hnumber) ?_
  rw [token?, withoutUnderscores_of_forall hshape.ne_underscore, hread]
  rfl

end ErlangFragment
