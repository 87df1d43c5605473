import ErlangFragment.Text.Class
import ErlangFragment.Text.Radix

/-! Digits denote the number that they write, and a run of digits ends where no digit follows. -/

namespace ErlangFragment

/-! ### Classes of characters -/

theorem isNameChar_of_isDigit {c : Char} (h : c.isDigit = true) : isNameChar c = true := by
  simp [isNameChar, Char.isAlphanum, h]

theorem isNameChar_of_isAlphanum {c : Char} (h : c.isAlphanum = true) : isNameChar c = true := by
  simp [isNameChar, h]

/-- No character of the class stands in front. -/
def Avoids (p : Char → Bool) (cs : List Char) : Prop := ∀ c ∈ cs.head?, p c = false

@[simp] theorem avoids_nil (p : Char → Bool) : Avoids p [] := by simp [Avoids]

@[simp] theorem avoids_cons (p : Char → Bool) (c : Char) (cs : List Char) :
    Avoids p (c :: cs) ↔ p c = false := by simp [Avoids]

theorem Avoids.mono {p q : Char → Bool} {cs : List Char} (h : Avoids q cs)
    (hpq : ∀ c, p c = true → q c = true) : Avoids p cs := by
  intro c hc
  exact Bool.eq_false_iff.mpr fun hp => Bool.eq_false_iff.mp (h c hc) (hpq c hp)

theorem takeWhile_append_of_avoids {p : Char → Bool} {cs rest : List Char}
    (h : ∀ c ∈ cs, p c = true) (hr : Avoids p rest) : (cs ++ rest).takeWhile p = cs := by
  rw [List.takeWhile_append_of_pos h]
  cases rest with
  | nil => simp
  | cons c rest => simp [(avoids_cons p c rest).mp hr]

/-- A text is a run of characters of the class and a rest that does not go on with it. -/
theorem exists_run (p : Char → Bool) (cs : List Char) :
    ∃ run rest, cs = run ++ rest ∧ (∀ c ∈ run, p c = true) ∧ Avoids p rest := by
  induction cs with
  | nil => exact ⟨[], [], rfl, List.forall_mem_nil _, avoids_nil p⟩
  | cons c cs ih =>
      by_cases hc : p c = true
      · obtain ⟨run, rest, rfl, hrun, hrest⟩ := ih
        exact ⟨c :: run, rest, rfl, List.forall_mem_cons.mpr ⟨hc, hrun⟩, hrest⟩
      · exact ⟨[], c :: cs, rfl, List.forall_mem_nil _, by simpa using hc⟩

namespace Radix

/-! ### Values -/

theorem value_concat (base : Nat) (digits : List Char) (c : Char) :
    value base (digits ++ [c]) = value base digits * base + (digitValue? c).getD 0 := by
  simp [value]

theorem digitValue?_digitChar : ∀ d < 16, digitValue? (Nat.digitChar d) = some d := by decide

theorem digitValue?_upperDigit : ∀ d < 16, digitValue? (Nat.digitChar d).toUpper = some d := by
  decide

/-- Digits are taken from the end, so numbers below the base come first. -/
theorem toDigits_induction {base : Nat} (hb : 1 < base) {motive : Nat → Prop}
    (small : ∀ n < base, motive n) (step : ∀ n, base ≤ n → motive (n / base) → motive n) (n : Nat) :
    motive n := by
  induction n using Nat.strongRecOn with
  | ind n ih =>
      by_cases hn : n < base
      · exact small n hn
      · exact step n (Nat.not_lt.mp hn) (ih _ (Nat.div_lt_self (by omega) hb))

theorem value_map_toDigits {base : Nat} (hb : 1 < base) {f : Char → Char}
    (hf : ∀ d < base, digitValue? (f (Nat.digitChar d)) = some d) (n : Nat) :
    value base ((Nat.toDigits base n).map f) = n := by
  induction n using toDigits_induction hb with
  | small n hn => simp [Nat.toDigits_of_lt_base hn, value, hf n hn]
  | step n hn ih =>
      have hlast := hf (n % base) (Nat.mod_lt n (by omega))
      rw [Nat.toDigits_of_base_le hb hn, List.map_append, List.map_singleton, value_concat,
        ih, hlast]
      exact Nat.div_add_mod' n base

/-- A number is the value of its decimal digits. -/
theorem value_decimal (n : Nat) : value 10 (decimal n) = n := by
  have h := value_map_toDigits (f := id) (by decide : 1 < 10)
    (fun d hd => digitValue?_digitChar d (by omega)) n
  rwa [List.map_id] at h

/-- A number is the value of its hexadecimal digits. -/
theorem value_upperHex (n : Nat) : value 16 (upperHex n) = n :=
  value_map_toDigits (by decide) digitValue?_upperDigit n

theorem isDigit_of_mem_decimal {n : Nat} {c : Char} (h : c ∈ decimal n) : c.isDigit = true :=
  Nat.isDigit_of_mem_toDigits (by decide) (by decide) h

theorem decimal_ne_nil (n : Nat) : decimal n ≠ [] := Nat.toDigits_ne_nil

theorem isDigit_of_mem_upperHex {n : Nat} {c : Char} (h : c ∈ upperHex n) :
    isDigit 16 c = true := by
  induction n using toDigits_induction (by decide : 1 < 16) generalizing c with
  | small n hn =>
      obtain rfl : c = (Nat.digitChar n).toUpper := by
        simpa [upperHex, Nat.toDigits_of_lt_base hn] using h
      simp [isDigit, digitValue?_upperDigit n hn, hn]
  | step n hn ih =>
      rw [upperHex, Nat.toDigits_of_base_le (by decide) hn, List.map_append, List.mem_append] at h
      rcases h with h | h
      · exact ih h
      · have hlt : n % 16 < 16 := Nat.mod_lt n (by decide)
        obtain rfl : c = (Nat.digitChar (n % 16)).toUpper := by simpa using h
        simp [isDigit, digitValue?_upperDigit _ hlt, hlt]

theorem upperHex_ne_nil (n : Nat) : upperHex n ≠ [] := by
  simp [upperHex, Nat.toDigits_ne_nil]

/-! ### Runs of digits -/

/-- No digit of the class follows, not even behind an underscore. -/
def Stops (p : Char → Bool) (cs : List Char) : Prop :=
  Avoids p cs ∧ ∀ ds, cs = '_' :: ds → Avoids p ds

theorem Stops.of_avoids {p : Char → Bool} {cs : List Char} (h : Avoids p cs)
    (hu : cs.head? ≠ some '_') :
    Stops p cs := by
  refine ⟨h, ?_⟩
  rintro ds rfl
  simp at hu

theorem digitsLength_of_stops {p : Char → Bool} {cs : List Char} (h : Stops p cs) :
    digitsLength p cs = 0 := by
  cases cs with
  | nil => rfl
  | cons c cs =>
      have hc : p c = false := (avoids_cons p c cs).mp h.1
      by_cases hu : c = '_'
      · have hds := h.2 cs (by rw [hu])
        have hany : cs.head?.any p = false := by
          cases cs with
          | nil => rfl
          | cons d cs => simpa using hds
        simp [digitsLength, hc, hany]
      · simp [digitsLength, hc, hu]

/-- A run of digits stops where nothing goes on with it. -/
theorem digitsLength_append {p : Char → Bool} {digits rest : List Char}
    (h : ∀ c ∈ digits, p c = true) (hr : Stops p rest) :
    digitsLength p (digits ++ rest) = digits.length := by
  induction digits with
  | nil => exact digitsLength_of_stops hr
  | cons c digits ih =>
      have hc := h c List.mem_cons_self
      have htail := ih fun d hd => h d (List.mem_cons_of_mem c hd)
      simp [digitsLength, hc, htail]

/-- Characters of a class, with single underscores between them. -/
inductive Digits (p : Char → Bool) : List Char → Prop
  | last {d} : p d = true → Digits p [d]
  | digit {d ds} : p d = true → Digits p ds → Digits p (d :: ds)
  | group {d ds} : p d = true → Digits p ds → Digits p (d :: '_' :: ds)

section

variable {p : Char → Bool} {c d : Char} {cs ds rest : List Char}

theorem Digits.of_forall (hne : ds ≠ []) (h : ∀ d ∈ ds, p d = true) : Digits p ds := by
  induction ds with
  | nil => exact absurd rfl hne
  | cons d ds ih =>
      obtain ⟨hd, hds⟩ := List.forall_mem_cons.mp h
      by_cases hnil : ds = []
      · subst hnil
        exact .last hd
      · exact .digit hd (ih hnil hds)

theorem Digits.exists_cons (h : Digits p cs) : ∃ d ds, cs = d :: ds ∧ p d = true := by
  cases h with
  | last hd | digit hd _ | group hd _ => exact ⟨_, _, rfl, hd⟩

theorem Digits.head (h : Digits p (d :: ds)) : p d = true := by
  obtain ⟨_, _, heq, hd⟩ := h.exists_cons
  rwa [(List.cons.inj heq).1]

theorem Digits.mem (h : Digits p cs) : ∀ c ∈ cs, p c = true ∨ c = '_' := by
  induction h with
  | last hd => simpa using .inl hd
  | digit hd _ ih => exact List.forall_mem_cons.mpr ⟨.inl hd, ih⟩
  | group hd _ ih =>
      exact List.forall_mem_cons.mpr ⟨.inl hd, List.forall_mem_cons.mpr ⟨.inr rfl, ih⟩⟩

theorem Digits.tail (h : Digits p (c :: d :: ds)) (hd : p d = true) : Digits p (d :: ds) := by
  cases h with
  | digit _ h => exact h
  | group _ h => exact .digit hd h

/-- Digits are a run that the lexer goes through. -/
theorem Digits.digitsLength (h : Digits p (d :: ds)) (hr : Stops p rest) :
    digitsLength p (ds ++ rest) = ds.length := by
  generalize hcs : d :: ds = cs at h
  induction h generalizing d ds with
  | last _ =>
      obtain ⟨-, rfl⟩ := List.cons.inj hcs
      exact digitsLength_of_stops hr
  | digit _ h ih | group _ h ih =>
      obtain ⟨-, rfl⟩ := List.cons.inj hcs
      obtain ⟨e, es, rfl, he⟩ := h.exists_cons
      simp [digitsLength, he, ih rfl]

theorem digits_take (hd : p d = true) (cs : List Char) :
    Digits p (d :: cs.take (digitsLength p cs)) := by
  induction cs generalizing d with
  | nil => exact .last hd
  | cons c cs ih =>
      rw [digitsLength]
      split
      · next hc => exact .digit hd (ih hc)
      split
      · next hunder =>
        rw [Bool.and_eq_true, decide_eq_true_eq] at hunder
        obtain ⟨rfl, hhead⟩ := hunder
        rcases cs with _ | ⟨e, es⟩
        · cases hhead
        have he : p e = true := by simpa using hhead
        have hrest := ih hd
        rw [digitsLength, if_pos he] at hrest ⊢
        exact .group hd (hrest.tail he)
      · exact .last hd

end

end Radix

end ErlangFragment
