import ErlangFragment.Proofs.Text.Radix
import ErlangFragment.Token.Lexeme

/-! How character literals are written behind their `$`: a character, or a backslash and one of five
kinds of escapes. -/

namespace ErlangFragment

open Radix

namespace Lexeme

/-- The characters that have a control character behind `$\^`. -/
def isControlName (c : Char) : Bool := c.isAlpha || c = '@' || c = '_'

/-- The text starts with so many characters that a character literal has behind its `$`. -/
inductive CharacterForm : List Char → Nat → Prop
  | plain {c cs} : c ≠ '\\' → CharacterForm (c :: cs) 1
  | octal {d ds rest} : isDigit 8 d = true → (∀ e ∈ ds, isDigit 8 e = true) → ds.length ≤ 2 →
      (ds.length < 2 → Avoids (isDigit 8) rest) →
      CharacterForm ('\\' :: d :: (ds ++ rest)) (ds.length + 2)
  | hexPair {h l rest} : isDigit 16 h = true → isDigit 16 l = true →
      CharacterForm ('\\' :: 'x' :: h :: l :: rest) 4
  | hexBraces {ds rest} : ds ≠ [] → (∀ d ∈ ds, isDigit 16 d = true) →
      CharacterForm ('\\' :: 'x' :: '{' :: (ds ++ '}' :: rest)) (ds.length + 4)
  | control {c rest} : isControlName c = true → CharacterForm ('\\' :: '^' :: c :: rest) 3
  | other {e rest} : isDigit 8 e = false → e ≠ 'x' → e ≠ '^' → CharacterForm ('\\' :: e :: rest) 2

variable {cs : List Char} {n : Nat}

/-- The octal digits of an escape, up to the third one. -/
theorem octal_characterForm {e : Char} (he : isDigit 8 e = true) (es : List Char) :
    CharacterForm ('\\' :: e :: es) (((es.take 2).takeWhile (isDigit 8)).length + 2) := by
  obtain ⟨run, rest, rfl, hrun, hrest⟩ := exists_run (isDigit 8) es
  have hsplit : run ++ rest = run.take 2 ++ (run.drop 2 ++ rest) := by
    rw [← List.append_assoc, List.take_append_drop]
  rw [← List.take_takeWhile, takeWhile_append_of_avoids hrun hrest, hsplit]
  refine .octal he (fun d hd => hrun d (List.mem_of_mem_take hd)) (List.length_take_le 2 run)
    fun hlt => ?_
  have hdrop : run.drop 2 = [] := List.drop_eq_nil_of_le (by simp at hlt; omega)
  simpa [hdrop] using hrest

/-- The hexadecimal digits of an escape, up to the brace that closes it. -/
theorem hexBraces_characterForm {ds : List Char} (hne : (ds.takeWhile (isDigit 16)).length ≠ 0)
    (hclosed : (ds.drop (ds.takeWhile (isDigit 16)).length).head? = some '}') :
    CharacterForm ('\\' :: 'x' :: '{' :: ds) ((ds.takeWhile (isDigit 16)).length + 4) := by
  obtain ⟨run, rest, rfl, hrun, hrest⟩ := exists_run (isDigit 16) ds
  rw [takeWhile_append_of_avoids hrun hrest] at hne hclosed ⊢
  rw [List.drop_left] at hclosed
  obtain ⟨more, rfl⟩ := List.head?_eq_some_iff.mp hclosed
  exact .hexBraces (fun hnil => hne (congrArg List.length hnil)) hrun

theorem characterForm_of_characterLength? (h : characterLength? cs = some n) :
    CharacterForm cs n := by
  rcases cs with _ | ⟨c, cs⟩
  · cases h
  by_cases hc : c ≠ '\\'
  · obtain rfl : 1 = n := by simpa [characterLength?, hc] using h
    exact .plain hc
  obtain rfl : c = '\\' := by simpa using hc
  rcases cs with _ | ⟨e, es⟩
  · simp [characterLength?] at h
  simp only [characterLength?, ne_eq, not_true_eq_false, if_false] at h
  split at h
  · next he =>
    obtain rfl := Option.some.inj h
    exact octal_characterForm he es
  next he =>
  split at h
  · next hx =>
    subst hx
    split at h
    · next ds =>
      split at h
      · next hclosed =>
        obtain rfl := Option.some.inj h
        simp only [Bool.and_eq_true, decide_eq_true_eq] at hclosed
        exact hexBraces_characterForm hclosed.1 hclosed.2
      · cases h
    · split at h
      · next hdigits =>
        obtain rfl := Option.some.inj h
        rw [Bool.and_eq_true] at hdigits
        exact .hexPair hdigits.1 hdigits.2
      · cases h
    · cases h
  split at h
  · next hcaret =>
    subst hcaret
    split at h
    · split at h
      · next hname =>
        obtain rfl := Option.some.inj h
        exact .control hname
      · cases h
    · cases h
  · obtain rfl := Option.some.inj h
    exact .other (by simpa using he) ‹_› ‹_›

theorem CharacterForm.characterLength? (h : CharacterForm cs n) : characterLength? cs = some n := by
  cases h with
  | plain hc => simp [Lexeme.characterLength?, hc]
  | @octal d ds rest hd hds hlength hrest =>
      have hrun : ((ds ++ rest).take 2).takeWhile (isDigit 8) = ds := by
        rw [← List.take_takeWhile]
        by_cases hlt : ds.length < 2
        · rw [takeWhile_append_of_avoids hds (hrest hlt), List.take_of_length_le hlength]
        · rw [List.takeWhile_append_of_pos hds, List.take_append_of_le_length (by omega),
            List.take_of_length_le hlength]
      simp [Lexeme.characterLength?, hd, hrun]
  | @hexPair h l rest hh hl =>
      have hx : isDigit 8 'x' = false := rfl
      have hbrace : h ≠ '{' := by
        rintro rfl
        cases hh
      simp [Lexeme.characterLength?, hx, hh, hl]
  | @hexBraces ds rest hne hds =>
      have hrun : (ds ++ '}' :: rest).takeWhile (isDigit 16) = ds :=
        takeWhile_append_of_avoids hds (by simp; rfl)
      simp [Lexeme.characterLength?, hrun, hne, show isDigit 8 'x' = false from rfl]
  | @control c rest hc =>
      rw [isControlName] at hc
      simp [Lexeme.characterLength?, show isDigit 8 '^' = false from rfl, hc]
  | other he hx hcaret => simp [Lexeme.characterLength?, he, hx, hcaret]

/-- The length of a character literal is that of the form it has. -/
theorem characterLength?_eq_some : characterLength? cs = some n ↔ CharacterForm cs n :=
  ⟨characterForm_of_characterLength?, CharacterForm.characterLength?⟩

end Lexeme

end ErlangFragment
