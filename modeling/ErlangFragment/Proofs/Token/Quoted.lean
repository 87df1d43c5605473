import ErlangFragment.Proofs.Text.Radix
import ErlangFragment.Token.Lexeme

/-! Quoting. What is written between quotes reads back as the text it stands for, and the closing
quote is the first one that no backslash hides. -/

namespace ErlangFragment.Quoted

/-- The characters that a text can stand between. -/
def IsQuote (q : Char) : Prop := q = '"' ∨ q = '\''

/-- A character that has no meaning of its own behind a backslash stands for itself there. -/
theorem escape?_other {c : Char} (hletter : letterEscape? c = none)
    (hdigit : Radix.isDigit 8 c = false) (hx : c ≠ 'x') (hcaret : c ≠ '^') (cs : List Char) :
    escape? c cs = some (c, 0) := by
  simp [escape?, hletter, hdigit, hx, hcaret]

theorem escape?_backslash (cs : List Char) : escape? '\\' cs = some ('\\', 0) :=
  escape?_other (by decide) (by decide) (by decide) (by decide) cs

theorem IsQuote.escape? {q : Char} (h : IsQuote q) (cs : List Char) :
    escape? q cs = some (q, 0) := by
  rcases h with rfl | rfl
  · exact escape?_other (by decide) (by decide) (by decide) (by decide) cs
  · exact escape?_other (by decide) (by decide) (by decide) (by decide) cs

theorem IsQuote.ne_of_mem_upperHex {q c : Char} {n : Nat} (h : IsQuote q)
    (hc : c ∈ Radix.upperHex n) : c ≠ '\\' ∧ c ≠ q := by
  have hdigit := Radix.isDigit_of_mem_upperHex hc
  rcases h with rfl | rfl
  all_goals constructor <;> rintro rfl <;> exact absurd hdigit (by decide)

/-! ### Decoding -/

theorem decode?_plain {c : Char} (hc : c ≠ '\\') (cs : List Char) :
    decode? (c :: cs) = (decode? cs).map (c :: ·) := by
  rw [decode?.eq_def]
  simp [hc]

theorem decode?_escape {d e : Char} {n : Nat} {ds : List Char} (h : escape? d ds = some (e, n)) :
    decode? ('\\' :: d :: ds) = (decode? (ds.drop n)).map (e :: ·) := by
  rw [decode?.eq_def]
  simp [h]

theorem scalar?_toNat (c : Char) : scalar? c.toNat = some c := by
  have hvalid : c.toNat.isValidChar := c.valid
  simp [scalar?, hvalid]

theorem ne_rightBrace_of_isDigit {base : Nat} {c : Char} (h : Radix.isDigit base c = true) :
    c ≠ '}' := by
  rintro rfl
  cases h

/-- A hexadecimal escape is read as the character it was written for. -/
theorem hexEscape?_upperHex (c : Char) (cs : List Char) :
    hexEscape? ('{' :: (Radix.upperHex c.toNat ++ '}' :: cs)) =
      some (c, (Radix.upperHex c.toNat).length + 2) := by
  have hrun : (Radix.upperHex c.toNat ++ '}' :: cs).takeWhile (· ≠ '}') = Radix.upperHex c.toNat :=
    takeWhile_append_of_avoids
      (fun d hd => by simpa using ne_rightBrace_of_isDigit (Radix.isDigit_of_mem_upperHex hd))
      (by simp)
  have hall : (Radix.upperHex c.toNat).all (Radix.isDigit 16) = true :=
    List.all_eq_true.mpr fun d hd => Radix.isDigit_of_mem_upperHex hd
  simp only [hexEscape?, hrun]
  simp [Radix.upperHex_ne_nil, hall, Radix.value_upperHex, scalar?_toNat]

/-- What a character is written as reads back as the character. -/
theorem decode?_encodeChar {quote : Option Char} (hq : ∀ q ∈ quote, IsQuote q) (c : Char)
    (cs : List Char) : decode? (encodeChar quote c ++ cs) = (decode? cs).map (c :: ·) := by
  unfold encodeChar
  split
  · next h => subst h; exact decode?_escape (escape?_backslash cs)
  split
  · next h => subst h; exact decode?_escape (show escape? 'n' cs = some ('\n', 0) from rfl)
  split
  · next h => subst h; exact decode?_escape (show escape? 'r' cs = some ('\r', 0) from rfl)
  split
  · next h => subst h; exact decode?_escape (show escape? 't' cs = some ('\t', 0) from rfl)
  split
  · have hescape : escape? 'x' ('{' :: (Radix.upperHex c.toNat ++ '}' :: cs)) =
        some (c, (Radix.upperHex c.toNat).length + 2) := hexEscape?_upperHex c cs
    have hdrop : ('{' :: (Radix.upperHex c.toNat ++ '}' :: cs)).drop
        ((Radix.upperHex c.toNat).length + 2) = cs := by
      simp [List.drop_append]
    have h := decode?_escape hescape
    rw [hdrop] at h
    simpa [hexEscape] using h
  split
  · next h => exact decode?_escape ((hq c h).escape? cs)
  · next hne _ _ _ _ _ => exact decode?_plain hne cs

/-- Text that was escaped is read as it was, and then what follows it. -/
theorem decode?_encode_append {quote : Option Char} (hq : ∀ q ∈ quote, IsQuote q)
    (cs rest : List Char) : decode? (encode quote cs ++ rest) = (decode? rest).map (cs ++ ·) := by
  induction cs with
  | nil => simp [encode]
  | cons c cs ih =>
      rw [encode, List.flatMap_cons, List.append_assoc, decode?_encodeChar hq]
      rw [encode] at ih
      rw [ih, Option.map_map]
      rfl

/-- Reading undoes writing. -/
theorem decode?_encode {quote : Option Char} (hq : ∀ q ∈ quote, IsQuote q) (cs : List Char) :
    decode? (encode quote cs) = some cs := by
  have h := decode?_encode_append hq cs []
  rw [List.append_nil] at h
  simpa [decode?] using h

end ErlangFragment.Quoted

namespace ErlangFragment.Lexeme

/-! ### The closing quote -/

theorem quotedLength?_plain {quote c : Char} (hc : c ≠ '\\') (hq : c ≠ quote) (cs : List Char) :
    quotedLength? quote (c :: cs) = (quotedLength? quote cs).map (· + 1) := by
  rw [quotedLength?]
  · simp [hc, hq]
  · simp [hc]

theorem quotedLength?_escape {quote c : Char} (hc : c ≠ '\n') (cs : List Char) :
    quotedLength? quote ('\\' :: c :: cs) = (quotedLength? quote cs).map (· + 2) := by
  rw [quotedLength?]
  simp [hc]

theorem quotedLength?_plain_append {quote : Char} {cs : List Char}
    (h : ∀ c ∈ cs, c ≠ '\\' ∧ c ≠ quote) (rest : List Char) :
    quotedLength? quote (cs ++ rest) = (quotedLength? quote rest).map (· + cs.length) := by
  induction cs with
  | nil => simp
  | cons c cs ih =>
      obtain ⟨hc, hq⟩ := h c List.mem_cons_self
      have htail := ih fun d hd => h d (List.mem_cons_of_mem c hd)
      rw [List.cons_append, quotedLength?_plain hc hq, htail, Option.map_map]
      rfl

open Quoted

/-- An escaped character never ends a quotation. -/
theorem quotedLength?_encodeChar {quote : Char} (hq : IsQuote quote) (c : Char) (cs : List Char) :
    quotedLength? quote (encodeChar (some quote) c ++ cs) =
      (quotedLength? quote cs).map (· + (encodeChar (some quote) c).length) := by
  unfold encodeChar
  split
  · exact quotedLength?_escape (by decide) cs
  split
  · exact quotedLength?_escape (by decide) cs
  split
  · exact quotedLength?_escape (by decide) cs
  split
  · exact quotedLength?_escape (by decide) cs
  split
  · have hplain : ∀ d ∈ '{' :: (Radix.upperHex c.toNat ++ ['}']), d ≠ '\\' ∧ d ≠ quote := by
      intro d hd
      simp only [List.mem_cons, List.mem_append, List.not_mem_nil, or_false] at hd
      rcases hd with rfl | hd | rfl
      · rcases hq with rfl | rfl <;> decide
      · exact hq.ne_of_mem_upperHex hd
      · rcases hq with rfl | rfl <;> decide
    have h := @quotedLength?_escape quote 'x' (by decide)
      ('{' :: (Radix.upperHex c.toNat ++ ['}']) ++ cs)
    rw [quotedLength?_plain_append hplain, Option.map_map] at h
    exact h
  split
  · next hquote =>
    have hc : c ≠ '\n' := by
      rintro rfl
      rcases hq with rfl | rfl <;> cases hquote
    exact quotedLength?_escape hc cs
  · next hne _ _ _ _ hquote =>
    have hc : c ≠ quote := fun h => hquote (by rw [h])
    exact quotedLength?_plain hne hc cs

/-- The closing quote is found behind the text and not before. -/
theorem quotedLength?_encode {quote : Char} (hq : IsQuote quote) (cs rest : List Char) :
    quotedLength? quote (encode (some quote) cs ++ quote :: rest) =
      some ((encode (some quote) cs).length + 1) := by
  induction cs with
  | nil =>
      rcases hq with rfl | rfl <;> simp [encode, quotedLength?]
  | cons c cs ih =>
      rw [encode, List.flatMap_cons, List.append_assoc, quotedLength?_encodeChar hq]
      rw [encode] at ih
      rw [ih, Option.map_some, List.length_append]
      congr 1
      omega

end ErlangFragment.Lexeme
